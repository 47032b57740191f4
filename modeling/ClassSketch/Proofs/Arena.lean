import ClassSketch.Proofs.NodeNumbers
import ClassSketch.Proofs.ParentChains

/-! Nesting settled on places. All classes stand in one list, the arena, and relatives are given by
their places in it. Every place that is looked up is in range, the way up from any class ends, and
what the arena comes to is what the walks over names come to. -/

namespace ClassSketch

/-- A class among its relatives, which are given by their places. -/
structure Cell where
  node : ClassNode
  parent : Option Nat := none
  children : List Nat := []

/-- The classes by place, and the places by name. -/
structure Arena where
  cells : List Cell := []
  index : List (String × Nat) := []

namespace Arena

def push (a : Arena) (c : ClassDecl) : Arena :=
  ⟨a.cells ++ [{ node := .ofDecl c }], (c.name, a.cells.length) :: a.index⟩

def add (o : Options) (a : Arena) (c : ClassDecl) : Arena :=
  if (a.index.lookup c.name).isSome || !o.allows c.name then a else a.push c

def ofLibrary (l : Library) (o : Options) : Arena := l.ownClasses.foldl (add o) {}

end Arena

/-- Goes up from parent to parent, looking for the candidate. -/
def climbAt? (cells : List Cell) (candidate : Nat) : Nat → Option Nat → Option Bool
  | _, none => some false
  | 0, some _ => none
  | rounds + 1, some i =>
    if i = candidate then some true
    else do climbAt? cells candidate rounds (← cells[i]?).parent

/-- Where the settling of nesting has come to in an arena. -/
structure Attaching where
  cells : List Cell
  attached : List Nat := []
  met : List String := []
  queue : List String := []
  warnings : List Warning := []

namespace Attaching

def warn (a : Attaching) (x : Warning) : Attaching := { a with warnings := a.warnings ++ [x] }

/-- Whether a class may not be put under another one. -/
def isBarred? (a : Attaching) (child parent : Nat) : Option Bool :=
  if child == parent || a.attached.contains child then some true
  else do climbAt? a.cells child a.cells.length (← a.cells[parent]?).parent

section Steps

variable (g : Ground) (t : ClaimTable) (index : List (String × Nat))

/-- Puts a class under another one, at the end of its children. -/
def place? (parent child : Nat) (claim : Claim) (a : Attaching) : Option Attaching := do
  let inner ← a.cells[child]?
  let outer ← a.cells[parent]?
  let objection := if claim.kind = .anonymous ∧ g.options.verifyAnonymous then
      Anonymity.objection? g.library inner.node.decl outer.node.decl
    else none
  let kind := if objection.isSome then .localClass else claim.kind
  let node := ClassNode.ofClaim inner.node.decl claim kind (t.enclosersOf inner.node.name)
  let cells := a.cells.set child { inner with node, parent := some parent }
  let outer ← cells[parent]?
  return { a with
    cells := cells.set parent { outer with children := outer.children ++ [child] }
    attached := child :: a.attached
    queue := a.queue ++ [inner.node.name]
    warnings := a.warnings ++ objection.toList }

def lookAt? (parent : Nat) (nested : List String) (a : Attaching) (e : NestingEntry) :
    Option Attaching :=
  if !nested.contains e.inner || a.met.contains e.inner then some a
  else
    let a := { a with met := e.inner :: a.met }
    match index.lookup e.inner with
    | none => some (a.warn (.nestedMissing e.inner))
    | some child => do
      if ← a.isBarred? child parent then return a.warn (.alreadyNested e.inner)
      else
        match t.claim? e.inner with
        | none => return a
        | some claim => a.place? g t parent child claim

/-- Puts the children of a class into the order of their names. -/
def sortChildren? (parent : Nat) (a : Attaching) : Option Attaching := do
  let outer ← a.cells[parent]?
  let keyed ← outer.children.mapM fun i => (a.cells[i]?).map fun c => (c.node.name, i)
  let children := (sortByKey (fun x : String × Nat => x.1) keyed).map (·.2)
  return { a with cells := a.cells.set parent { outer with children } }

def visit? (a : Attaching) (name : String) : Option Attaching :=
  match index.lookup name, t.nestedIn name with
  | none, _ | _, [] => some a
  | some parent, nested => do
    let outer ← a.cells[parent]?
    match outer.node.decl.nestingEntries with
    | [] => return a.warn (.noNestingEntries name)
    | entries => (← entries.foldlM (lookAt? g t index parent nested) a).sortChildren? parent

/-- There is no answer if a class is left to be looked at. -/
def run? : Nat → Attaching → Option Attaching
  | 0, a => if a.queue.isEmpty then some a else none
  | n + 1, a =>
    match a.queue with
    | [] => some a
    | name :: queue => do run? n (← ({ a with queue } : Attaching).visit? g t index name)

end Steps

end Attaching

section Places

namespace Ground

def place (g : Ground) (n : String) : Nat := g.names.idxOf n

variable {g : Ground}

theorem place_lt {n : String} (h : n ∈ g.names) : g.place n < g.classes.length := by
  have hlt := List.idxOf_lt_length_of_mem h
  rwa [names, List.length_map] at hlt

theorem place_inj {m n : String} (h : m ∈ g.names) : g.place m = g.place n ↔ m = n :=
  List.idxOf_inj h

end Ground

end Places

section Links

/-- The node of a class: the one that was put somewhere, or the class for itself. -/
def nodeIn (links : List Link) (c : ClassDecl) : ClassNode :=
  ((links.find? fun link => link.child.name == c.name).map (·.child)).getD (.ofDecl c)

/-- The classes that were put under one, latest first. -/
def childrenIn (links : List Link) (n : String) : List String :=
  (links.filter fun link => link.parent == n).map (·.child.name)

theorem nodeIn_cons_self {link : Link} {links : List Link} {c : ClassDecl}
    (h : link.child.name = c.name) : nodeIn (link :: links) c = link.child := by
  simp [nodeIn, h]

theorem nodeIn_cons_of_ne {link : Link} {links : List Link} {c : ClassDecl}
    (h : link.child.name ≠ c.name) : nodeIn (link :: links) c = nodeIn links c := by
  simp [nodeIn, h]

theorem childrenIn_cons_self {link : Link} {links : List Link} {n : String} (h : link.parent = n) :
    childrenIn (link :: links) n = link.child.name :: childrenIn links n := by
  simp [childrenIn, h]

theorem childrenIn_cons_of_ne {link : Link} {links : List Link} {n : String} (h : link.parent ≠ n) :
    childrenIn (link :: links) n = childrenIn links n := by
  simp [childrenIn, h]

end Links

/-- The cells hold every class where the links put it. Children stand in the order of their names,
except below the class that is looked at. -/
structure Charted (g : Ground) (busy : Option String) (links : List Link) (cells : List Cell) :
    Prop where
  length : cells.length = g.classes.length
  cell : ∀ c ∈ g.classes, ∃ ns : List String, ns.Perm (childrenIn links c.name) ∧
    (busy ≠ some c.name → ns.Pairwise (· ≤ ·)) ∧
      cells[g.place c.name]? = some ⟨nodeIn links c, (parentIn links c.name).map g.place,
        ns.map g.place⟩

namespace Charted

variable {g : Ground} {busy : Option String} {links : List Link} {cells : List Cell}

/-- Writing two cells puts a class under the one that is looked at. -/
theorem graft {parent child : ClassDecl} (h : Charted g (some parent.name) links cells)
    (hp : parent ∈ g.classes) (hc : child ∈ g.classes) (hne : child.name ≠ parent.name)
    {inner outer : Cell} (hinner : cells[g.place child.name]? = some inner)
    (houter : cells[g.place parent.name]? = some outer) {link : Link}
    (hchild : link.child.name = child.name) (hparent : link.parent = parent.name) :
    Charted g (some parent.name) (link :: links)
      ((cells.set (g.place child.name)
          { inner with node := link.child, parent := some (g.place parent.name) }).set
        (g.place parent.name) { outer with children := outer.children ++ [g.place child.name] }) := by
  have hcn : child.name ∈ g.names := List.mem_map_of_mem hc
  have hpn : parent.name ∈ g.names := List.mem_map_of_mem hp
  have hclt := h.length ▸ Ground.place_lt hcn
  have hplt := h.length ▸ Ground.place_lt hpn
  have hplaces : ∀ {m n : String}, m ∈ g.names → m ≠ n → g.place m ≠ g.place n :=
    fun hm hmn he => hmn ((Ground.place_inj hm).mp he)
  refine ⟨by rw [List.length_set, List.length_set, h.length], fun c hcc => ?_⟩
  obtain ⟨ns, hns, hsorted, hcell⟩ := h.cell c hcc
  by_cases hcp : c.name = parent.name
  · -- the class that is looked at has one child more
    obtain rfl := List.inj_on_of_nodup_map g.distinct hcc hp hcp
    obtain rfl := Option.some.inj (hcell.symm.trans houter)
    refine ⟨ns ++ [child.name], ?_, fun hbusy => absurd rfl hbusy, ?_⟩
    · rw [childrenIn_cons_self hparent, hchild]
      exact (List.perm_append_singleton _ _).trans (hns.cons _)
    · have hnot : link.child.name ≠ c.name := hchild.trans_ne hne
      rw [List.getElem?_set_self (by rwa [List.length_set]), nodeIn_cons_of_ne hnot,
        parentIn_cons_of_ne hnot, List.map_append]
      rfl
  · have hside : link.parent ≠ c.name := hparent.trans_ne (Ne.symm hcp)
    refine ⟨ns, by rwa [childrenIn_cons_of_ne hside], hsorted, ?_⟩
    rw [List.getElem?_set_ne (hplaces hpn (Ne.symm hcp))]
    by_cases hcc' : c.name = child.name
    · obtain rfl := List.inj_on_of_nodup_map g.distinct hcc hc hcc'
      obtain rfl := Option.some.inj (hcell.symm.trans hinner)
      rw [List.getElem?_set_self hclt, nodeIn_cons_self hchild, ← hchild, parentIn_cons_self,
        hparent]
      rfl
    · have hnot : link.child.name ≠ c.name := hchild.trans_ne (Ne.symm hcc')
      rw [List.getElem?_set_ne (hplaces hcn (Ne.symm hcc')), nodeIn_cons_of_ne hnot,
        parentIn_cons_of_ne hnot]
      exact hcell

end Charted

/-- An attaching is where a walk is. -/
structure Mirrors (g : Ground) (busy : Option String) (w : Walk) (a : Attaching) : Prop where
  cells : Charted g busy w.links a.cells
  attached : ∀ n ∈ g.names, a.attached.contains (g.place n) = w.isPlaced n
  met : a.met = w.met
  queue : a.queue = w.queue
  warnings : a.warnings = w.warnings

namespace Mirrors

variable {g : Ground} {t : ClaimTable} {busy : Option String} {w : Walk} {a : Attaching}

theorem warn (h : Mirrors g busy w a) (x : Warning) : Mirrors g busy (w.warn x) (a.warn x) :=
  ⟨h.cells, h.attached, h.met, h.queue, congrArg (· ++ [x]) h.warnings⟩

theorem meet (h : Mirrors g busy w a) (n : String) :
    Mirrors g busy { w with met := n :: w.met } { a with met := n :: a.met } :=
  ⟨h.cells, h.attached, congrArg (n :: ·) h.met, h.queue, h.warnings⟩

section Index

variable {index : List (String × Nat)}
  (hindex : ∀ n, index.lookup n = (g.find? n).map fun c => g.place c.name)

include hindex

end Index

end Mirrors

namespace Arena

def names (a : Arena) : List String := a.cells.map (·.node.name)

/-- The index has the places of the classes that were added. -/
def Indexed (a : Arena) : Prop :=
  ∀ n, a.index.lookup n = if n ∈ a.names then some (a.names.idxOf n) else none

theorem names_push (a : Arena) (c : ClassDecl) : (a.push c).names = a.names ++ [c.name] := by
  rw [names, push, List.map_append]
  rfl

theorem Indexed.push {a : Arena} (h : a.Indexed) {c : ClassDecl} (hc : c.name ∉ a.names) :
    (a.push c).Indexed := by
  intro n
  have hlen : a.names.length = a.cells.length := List.length_map _
  rw [names_push, Arena.push, List.lookup_cons]
  by_cases hn : n = c.name
  · subst hn
    rw [beq_self_eq_true, if_pos (List.mem_append_right _ (List.mem_singleton_self _)),
      List.idxOf_append_of_notMem hc, List.idxOf_cons_self, hlen]
    rfl
  · rw [beq_eq_false_iff_ne.mpr hn]
    dsimp only
    rw [h n]
    by_cases hmem : n ∈ a.names
    · rw [if_pos hmem, if_pos (List.mem_append_left _ hmem), List.idxOf_append_of_mem hmem]
    · have hout : n ∉ a.names ++ [c.name] := by simp [hmem, hn]
      rw [if_neg hmem, if_neg hout]

end Arena

end ClassSketch
