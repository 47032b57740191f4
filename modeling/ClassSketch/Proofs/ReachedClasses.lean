import ClassSketch.Proofs.Provenance

/-! Which classes the sketch of a tree comes to. The recursion over the tree is a run over a list of
steps, each of which enters a class or leaves it. The classes that are entered are those that can be
reached from the root over members that are shown. -/

namespace ClassSketch

namespace TypeSketch

variable {σ : Type}

inductive WalkStep where
  | enter (e : Emitted)
  | leave (e : Emitted)

def WalkStep.entered? : WalkStep → Option Emitted
  | enter e => some e
  | leave _ => none

/-- The classes that a walk enters, in their order. -/
def entered (steps : List WalkStep) : List Emitted := steps.filterMap WalkStep.entered?

/-- A bench on a walk. Of the classes that were entered and not left, innermost first, it keeps the
scope around the class and whether anything stands in the class by now. -/
structure Walker (σ : Type) where
  bench : Bench σ
  inside : List (Scope × Bool) := []

namespace Walker

/-- An empty line before a class that follows something. -/
def gap (w : Walker σ) : Walker σ :=
  match w.inside with
  | [] => w
  | (around, content) :: rest =>
    ⟨(SketchM.editWhen content Draft.endLine w.bench).2, (around, true) :: rest⟩

/-- The class down to its last method. -/
def front (k : Kit σ) (e : Emitted) : SketchM σ Bool := do
  if isFacade e.node.decl then pure () else Header.sketch k e.node (e.level - 1)
  let content ← FieldSketch.sketchAll k (k.renderer.hidden e.node.decl) e.node.decl e.level
  MethodSketch.sketchAll k e.node e.hidden e.level content

def back (e : Emitted) (d : Draft) : Draft :=
  if isFacade e.node.decl then d else closingBrace e.node (e.level - 1) d

/-- Enters a class and comes to its members. -/
def enter (k : Kit σ) (e : Emitted) (w : Walker σ) : Bool × Bench σ :=
  front k e (Scoped.withScope w.bench (w.bench.draft.scope.enterClass e.node.name))

def step (k : Kit σ) (w : Walker σ) : WalkStep → Walker σ
  | .enter e =>
    let r := w.gap.enter k e
    ⟨r.2, (w.gap.bench.draft.scope, r.1) :: w.gap.inside⟩
  | .leave e =>
    match w.inside with
    | [] => w
    | (around, _) :: rest =>
      ⟨Scoped.withScope { w.bench with draft := back e w.bench.draft } around, rest⟩

def run (k : Kit σ) (steps : List WalkStep) (w : Walker σ) : Walker σ := steps.foldl (step k) w

theorem run_append (k : Kit σ) (steps steps' : List WalkStep) (w : Walker σ) :
    run k (steps ++ steps') w = run k steps' (run k steps w) := List.foldl_append

end Walker

/-- A class at a level, with what is left out of its members. -/
def emittedAt (k : Kit σ) (level : Nat) (n : ClassNode) (children : List (Tree ClassNode)) :
    Emitted :=
  ⟨memberLevel n level, n, k.renderer.hidden n.decl ++ lambdaTargets children⟩

mutual

/-- The steps over a class and its member classes. -/
def walk (k : Kit σ) (level : Nat) : Tree ClassNode → List WalkStep
  | .node n children =>
    .enter (emittedAt k level n children) ::
      (walkAll k (k.renderer.hidden n.decl) (memberLevel n level) children ++
        [.leave (emittedAt k level n children)])

def walkAll (k : Kit σ) (hidden : List String) (level : Nat) : List (Tree ClassNode) → List WalkStep
  | [] => []
  | t :: ts =>
    if isShownMember k.options hidden t.value then walk k level t ++ walkAll k hidden level ts
    else walkAll k hidden level ts

end

theorem entered_append (steps steps' : List WalkStep) :
    entered (steps ++ steps') = entered steps ++ entered steps' := List.filterMap_append

theorem entered_walk (k : Kit σ) (level : Nat) (n : ClassNode) (children : List (Tree ClassNode)) :
    entered (walk k level (.node n children)) = emittedAt k level n children ::
      entered (walkAll k (k.renderer.hidden n.decl) (memberLevel n level) children) := by
  have hleave : entered [.leave (emittedAt k level n children)] = [] := rfl
  have hrest := entered_append (walkAll k (k.renderer.hidden n.decl) (memberLevel n level) children)
    [.leave (emittedAt k level n children)]
  rw [hleave, List.append_nil] at hrest
  rw [walk]
  exact congrArg (_ :: ·) hrest

section Modules

/-- None of the classes is a module with a descriptor. -/
def Moduleless (es : List Emitted) : Prop := ∀ e ∈ es, moduleOf? e.node.decl = none

/-- A class that is no module, as a front, its members and a back. -/
theorem sketchPlain_apply (k : Kit σ) (level : Nat) (n : ClassNode)
    (children : List (Tree ClassNode)) (b : Bench σ) :
    let e := emittedAt k level n children
    let r := Walker.front k e b
    let c := (sketchMembers k (k.renderer.hidden n.decl) (memberLevel n level) r.1 children r.2).2
    (sketchPlain k level n children b).2 = { c with draft := Walker.back e c.draft } := by
  dsimp only [emittedAt]
  rw [sketchPlain, memberLevel]
  split
  · next h =>
    simp only [Walker.front, Walker.back, h, if_true]
    rfl
  · next h =>
    simp only [Walker.front, Walker.back, h]
    rfl

/-- A run over the steps of members sketches the members. -/
theorem run_walkAll {k : Kit σ} {ts : List (Tree ClassNode)} {level : Nat} (hidden : List String)
    (hts : ∀ t ∈ ts, Moduleless (entered (walk k level t)) → ∀ w : Walker σ,
      w.run k (walk k level t) = ⟨(sketch k level t w.gap.bench).2, w.gap.inside⟩)
    (hplain : Moduleless (entered (walkAll k hidden level ts))) (b : Bench σ) (around : Scope)
    (content : Bool) (rest : List (Scope × Bool)) :
    ∃ content', Walker.run k (walkAll k hidden level ts) ⟨b, (around, content) :: rest⟩ =
      ⟨(sketchMembers k hidden level content ts b).2, (around, content') :: rest⟩ := by
  induction ts generalizing b content with
  | nil =>
    rw [walkAll, sketchMembers]
    exact ⟨content, rfl⟩
  | cons t ts ih =>
    have htail : ∀ s ∈ ts, _ := fun s hs => hts s (List.mem_cons_of_mem _ hs)
    rw [walkAll] at hplain ⊢
    rw [sketchMembers]
    split at hplain
    · next hshown =>
      rw [entered_append] at hplain
      have hfirst := hts t List.mem_cons_self (fun e he => hplain e (List.mem_append_left _ he))
        ⟨b, (around, content) :: rest⟩
      rw [if_pos hshown, if_pos hshown, Walker.run_append, hfirst]
      exact ih htail (fun e he => hplain e (List.mem_append_right _ he)) _ true
    · next hshown =>
      rw [if_neg hshown, if_neg hshown]
      exact ih htail hplain b content

/-- The sketch of a tree is a run over the steps of its walk. -/
theorem run_walk {k : Kit σ} {t : Tree ClassNode} {level : Nat}
    (hplain : Moduleless (entered (walk k level t))) (w : Walker σ) :
    w.run k (walk k level t) = ⟨(sketch k level t w.gap.bench).2, w.gap.inside⟩ := by
  induction t generalizing level w with
  | node n ts ih =>
    rw [entered_walk] at hplain
    have hnone : moduleOf? n.decl = none := hplain _ List.mem_cons_self
    have hbelow : Moduleless
        (entered (walkAll k (k.renderer.hidden n.decl) (memberLevel n level) ts)) :=
      fun e he => hplain e (List.mem_cons_of_mem _ he)
    have hclass := sketchPlain_apply k level n ts
      (Scoped.withScope w.gap.bench (w.gap.bench.draft.scope.enterClass n.name))
    have henter : w.step k (.enter (emittedAt k level n ts)) =
        ⟨(w.gap.enter k (emittedAt k level n ts)).2, (w.gap.bench.draft.scope,
          (w.gap.enter k (emittedAt k level n ts)).1) :: w.gap.inside⟩ := rfl
    have hopened : Walker.front k (emittedAt k level n ts)
        (Scoped.withScope w.gap.bench (w.gap.bench.draft.scope.enterClass n.name)) =
        w.gap.enter k (emittedAt k level n ts) := rfl
    rw [sketch_node, hnone]
    dsimp only at hclass ⊢
    rw [hopened] at hclass
    rw [hclass, walk, Walker.run, List.foldl_cons, List.foldl_append, henter]
    generalize w.gap.enter k (emittedAt k level n ts) = opened
    obtain ⟨content, hrun⟩ := run_walkAll (k.renderer.hidden n.decl) (fun t ht => ih t ht) hbelow
      opened.2 w.gap.bench.draft.scope opened.1 w.gap.inside
    rw [Walker.run] at hrun
    rw [hrun]
    rfl

/-- Without modules, the classes that are entered are those that are written. -/
theorem entered_walk_eq_emitted {k : Kit σ} {t : Tree ClassNode} {level : Nat}
    (hplain : Moduleless (entered (walk k level t))) :
    entered (walk k level t) = emitted k level t := by
  induction t generalizing level with
  | node n ts ih =>
    rw [entered_walk] at hplain ⊢
    have hnone : moduleOf? n.decl = none := hplain _ List.mem_cons_self
    have hall : ∀ ts' : List (Tree ClassNode), (∀ t ∈ ts', t ∈ ts) → ∀ hidden level,
        Moduleless (entered (walkAll k hidden level ts')) →
        entered (walkAll k hidden level ts') = emittedAll k hidden level ts' := by
      intro ts' hsub hidden level hplain
      induction ts' with
      | nil =>
        rw [walkAll, emittedAll]
        rfl
      | cons t ts' ihs =>
        have htail := ihs fun s hs => hsub s (List.mem_cons_of_mem _ hs)
        rw [walkAll] at hplain ⊢
        rw [emittedAll]
        split at hplain
        · next hshown =>
          rw [entered_append] at hplain
          rw [if_pos hshown, if_pos hshown, entered_append,
            ih t (hsub t List.mem_cons_self) fun e he => hplain e (List.mem_append_left _ he),
            htail fun e he => hplain e (List.mem_append_right _ he)]
        · next hshown =>
          rw [if_neg hshown, if_neg hshown]
          exact htail hplain
    rw [emitted, hnone, hall ts (fun _ h => h) _ _ fun e he => hplain e (List.mem_cons_of_mem _ he)]
    rfl

end Modules

section Reach

variable {k : Kit σ} {n m : ClassNode} {ts : List (Tree ClassNode)} {t : Tree ClassNode}
  {level : Nat}

/-- A class that is written as a member of another one: it is neither left out as synthetic nor
hidden there. -/
structure Shown (k : Kit σ) (parent n : ClassNode) : Prop where
  kind_eq : n.kind = .member
  kept : ¬ (k.options.hideSynthetic = true ∧
    (n.access.isSynthetic = true ∨ n.decl.isSynthetic = true))
  not_hidden : n.name ∉ k.renderer.hidden parent.decl

theorem isShownMember_iff :
    isShownMember k.options (k.renderer.hidden n.decl) m = true ↔ Shown k n m := by
  have hbool : isShownMember k.options (k.renderer.hidden n.decl) m = true ↔
      (m.kind = .member ∧ ¬ (k.options.hideSynthetic = true ∧
        (m.access.isSynthetic = true ∨ m.decl.isSynthetic = true))) ∧
        m.name ∉ k.renderer.hidden n.decl := by
    simp only [isShownMember, Bool.and_eq_true, Bool.not_eq_true', beq_iff_eq,
      Bool.and_eq_false_iff, Bool.or_eq_false_iff, List.contains_eq_mem, decide_eq_false_iff_not]
    grind
  exact hbool.trans ⟨fun h => ⟨h.1.1, h.1.2, h.2⟩, fun h => ⟨⟨h.kind_eq, h.kept⟩, h.not_hidden⟩⟩

/-- A class of a tree that lies below its root over shown members alone. -/
inductive Reached (k : Kit σ) : Tree ClassNode → ClassNode → Prop
  | root (n : ClassNode) (ts : List (Tree ClassNode)) : Reached k (.node n ts) n
  | member {n m : ClassNode} {ts : List (Tree ClassNode)} {t : Tree ClassNode} (ht : t ∈ ts)
      (hshown : Shown k n t.value) (hm : Reached k t m) : Reached k (.node n ts) m

theorem reached_node :
    Reached k (.node n ts) m ↔ m = n ∨ ∃ t ∈ ts, Shown k n t.value ∧ Reached k t m := by
  constructor
  · intro h
    cases h with
    | root => exact .inl rfl
    | member ht hshown hm => exact .inr ⟨_, ht, hshown, hm⟩
  · rintro (rfl | ⟨t, ht, hshown, hm⟩)
    · exact .root m ts
    · exact .member ht hshown hm

theorem Reached.mem_toList (h : Reached k t m) : m ∈ t.toList := by
  induction h with
  | root n ts => simp
  | member ht _ _ ih => simpa using .inr ⟨_, ht, ih⟩

theorem mem_entered_walkAll {hidden : List String} {e : Emitted} :
    e ∈ entered (walkAll k hidden level ts) ↔
      ∃ t ∈ ts, isShownMember k.options hidden t.value = true ∧ e ∈ entered (walk k level t) := by
  induction ts with
  | nil => simp [walkAll, entered]
  | cons t ts ih =>
    rw [walkAll, List.exists_mem_cons_iff, ← ih]
    split
    · next hshown =>
      rw [entered_append, List.mem_append]
      exact or_congr_left (and_iff_right hshown).symm
    · next hshown => exact (or_iff_right fun h => hshown h.1).symm

theorem mem_entered_walk_node {e : Emitted} :
    e ∈ entered (walk k level (.node n ts)) ↔ e = emittedAt k level n ts ∨
      ∃ t ∈ ts, Shown k n t.value ∧ e ∈ entered (walk k (memberLevel n level) t) := by
  rw [entered_walk, List.mem_cons, mem_entered_walkAll]
  simp only [isShownMember_iff]

/-- A walk enters the classes that can be reached. -/
theorem mem_entered_walk :
    m ∈ (entered (walk k level t)).map (·.node) ↔ Reached k t m := by
  induction t generalizing level with
  | node n ts ih =>
    rw [reached_node, List.mem_map]
    constructor
    · rintro ⟨e, he, rfl⟩
      rcases mem_entered_walk_node.mp he with rfl | ⟨t, ht, hshown, he⟩
      · exact .inl rfl
      · exact .inr ⟨t, ht, hshown, (ih t ht).mp (List.mem_map_of_mem he)⟩
    · rintro (rfl | ⟨t, ht, hshown, hm⟩)
      · exact ⟨_, mem_entered_walk_node.mpr (.inl rfl), rfl⟩
      · have hmem : m ∈ (entered (walk k (memberLevel n level) t)).map (·.node) := (ih t ht).mpr hm
        obtain ⟨e, he, rfl⟩ := List.mem_map.mp hmem
        exact ⟨e, mem_entered_walk_node.mpr (.inr ⟨t, ht, hshown, he⟩), rfl⟩

/-- Nodes that are no members may be dropped. -/
theorem reached_keep {p : ClassNode → Bool} (hp : ∀ n ∈ t.toList, n.kind = .member → p n = true) :
    Reached k (t.keep p) m ↔ Reached k t m := by
  induction t with
  | node n ts ih =>
    have hbelow : ∀ t ∈ ts, ∀ c ∈ t.toList, c.kind = .member → p c = true := by
      intro t ht c hc
      exact hp c (by simpa using .inr ⟨t, ht, hc⟩)
    have hvalue : ∀ t : Tree ClassNode, (t.keep p).value = t.value := by
      rintro ⟨a, us⟩
      rw [Tree.keep_node]
      rfl
    rw [Tree.keep_node, reached_node, reached_node]
    refine or_congr_right ⟨?_, ?_⟩
    · rintro ⟨_, hs, hshown, hm⟩
      obtain ⟨t, ht, rfl⟩ := List.mem_map.mp hs
      have ht := (List.mem_filter.mp ht).1
      exact ⟨t, ht, hvalue t ▸ hshown, (ih t ht (hbelow t ht)).mp hm⟩
    · rintro ⟨t, ht, hshown, hm⟩
      have hkept := hbelow t ht t.value (Tree.value_mem_toList t) hshown.kind_eq
      exact ⟨t.keep p, List.mem_map_of_mem (List.mem_filter.mpr ⟨ht, hkept⟩),
        (hvalue t).symm ▸ hshown, (ih t ht (hbelow t ht)).mpr hm⟩

theorem reached_map {f : ClassNode → ClassNode} (hf : ∀ n m, Shown k (f n) (f m) ↔ Shown k n m) :
    Reached k (t.map f) m ↔ ∃ c, Reached k t c ∧ f c = m := by
  induction t with
  | node n ts ih =>
    simp only [Tree.map_node, reached_node]
    constructor
    · rintro (rfl | ⟨_, hs, hshown, hm⟩)
      · exact ⟨n, .inl rfl, rfl⟩
      · obtain ⟨t, ht, rfl⟩ := List.mem_map.mp hs
        rw [Tree.value_map, hf] at hshown
        obtain ⟨c, hc, rfl⟩ := (ih t ht).mp hm
        exact ⟨c, .inr ⟨t, ht, hshown, hc⟩, rfl⟩
    · rintro ⟨c, rfl | ⟨t, ht, hshown, hc⟩, rfl⟩
      · exact .inl rfl
      · refine .inr ⟨t.map f, List.mem_map_of_mem ht, ?_, (ih t ht).mpr ⟨c, hc, rfl⟩⟩
        rw [Tree.value_map, hf]
        exact hshown

/-- In the tree as it is written the same classes are reached. -/
theorem reached_sprouted {t : ClassTree} (ht : t.Bare) :
    Reached k (t.sprouted k.renderer).tree m ↔
      ∃ c, Reached k t.tree c ∧ { c with failed := false } = m := by
  have hmembers : ∀ n ∈ (t.sprouted k.renderer).tree.toList, n.kind = .member →
      decide (n.id < t.built) = true := by
    intro n hn hkind
    have hlambda : n.isLambda = false := by
      rw [ClassNode.isLambda, hkind]
      rfl
    have hclear := ClassTree.mem_of_mem_sprouted hn hlambda
    rw [ClassTree.nodes, ClassTree.clearFailures, Tree.toList_map] at hclear
    obtain ⟨c, hc, rfl⟩ := List.mem_map.mp hclear
    exact decide_eq_true (ht.id_lt c hc)
  rw [← reached_keep hmembers, ClassTree.sprouted, ht.keep_discoverLambdas, ClassTree.clearFailures]
  exact reached_map fun n m => ⟨fun h => ⟨h.1, h.2, h.3⟩, fun h => ⟨h.1, h.2, h.3⟩⟩

end Reach

section Lambdas

variable {k : Kit σ} {t : Tree ClassNode} {level : Nat}

/-- The node stands for a lambda whose body is the method of the given key. -/
def Targets (n : ClassNode) (key : String) : Prop :=
  ∃ l, n.lambda = some l ∧ l.isReference = false ∧ l.site.targetKey = key

theorem mem_lambdaTargets {ts : List (Tree ClassNode)} {key : String} :
    key ∈ lambdaTargets ts ↔ ∃ c ∈ ts.map Tree.value, Targets c key := by
  simp only [lambdaTargets, List.mem_filterMap, List.mem_map, exists_exists_and_eq_and]
  refine exists_congr fun t => and_congr_right fun _ => ?_
  rw [Targets]
  cases t.value.lambda with
  | none => simp
  | some l => cases hl : l.isReference <;> simp [hl]

/-- What is left out of the members of a class that is entered. -/
theorem row_of_mem_entered {e : Emitted} (he : e ∈ entered (walk k level t))
    (parent : Option ClassNode) (depth : Nat) :
    ∃ r ∈ t.rows parent depth, r.value = e.node ∧ ∀ key, key ∈ e.hidden ↔
      key ∈ k.renderer.hidden e.node.decl ∨ ∃ c ∈ r.children, Targets c key := by
  induction t generalizing level parent depth with
  | node n ts ih =>
    rcases mem_entered_walk_node.mp he with rfl | ⟨t, ht, _, he⟩
    · refine ⟨_, Tree.mem_rows_node.mpr (.inl rfl), rfl, fun key => ?_⟩
      rw [emittedAt, List.mem_append, mem_lambdaTargets]
    · obtain ⟨r, hr, hrest⟩ := ih t ht he (some n) (depth + 1)
      exact ⟨r, Tree.mem_rows_node.mpr (.inr ⟨t, ht, hr⟩), hrest⟩

/-- A leaf that is added under some nodes is a child of these, and nothing else changes. -/
theorem row_of_modifyChildren_insert {p : ClassNode → Bool} {x : ClassNode}
    {parent : Option ClassNode} {depth : Nat} {r : Tree.Row ClassNode}
    (hr : r ∈ (t.modifyChildren p (insertByName (.leaf x))).rows parent depth) :
    r.value = x ∨ ∃ s ∈ t.rows parent depth, s.value = r.value ∧
      ∀ c, c ∈ r.children ↔ c ∈ s.children ∨ p r.value = true ∧ c = x := by
  induction t generalizing parent depth with
  | node n ts ih =>
    have hvalues : (ts.map (Tree.modifyChildren p (insertByName (.leaf x)))).map Tree.value =
        ts.map Tree.value := by
      rw [List.map_map]
      exact List.map_congr_left fun t _ => Tree.value_modifyChildren _ _ t
    rw [Tree.modifyChildren_node, Tree.mem_rows_node] at hr
    rcases hr with rfl | ⟨s, hs, hr⟩
    · refine .inr ⟨_, Tree.mem_rows_node.mpr (.inl rfl), rfl, fun c => ?_⟩
      dsimp only
      by_cases hp : p n = true
      · rw [if_pos hp, ((perm_insertByName (.leaf x) _).map Tree.value).mem_iff, List.map_cons,
          hvalues, List.mem_cons, or_comm]
        exact or_congr_right (and_iff_right hp).symm
      · rw [if_neg hp, hvalues]
        exact (or_iff_left fun h => hp h.1).symm
    · have hbelow : ∀ s ∈ ts.map (Tree.modifyChildren p (insertByName (.leaf x))),
          r ∈ s.rows (some n) (depth + 1) → r.value = x ∨
            ∃ s ∈ (Tree.node n ts).rows parent depth, s.value = r.value ∧
              ∀ c, c ∈ r.children ↔ c ∈ s.children ∨ p r.value = true ∧ c = x := by
        intro s hs hr
        obtain ⟨t, ht, rfl⟩ := List.mem_map.mp hs
        refine (ih t ht hr).imp_right ?_
        rintro ⟨s, hs, hrest⟩
        exact ⟨s, Tree.mem_rows_node.mpr (.inr ⟨t, ht, hs⟩), hrest⟩
      by_cases hp : p n = true
      · rw [if_pos hp, mem_insertByName] at hs
        rcases hs with rfl | hs
        · rw [Tree.leaf, Tree.mem_rows_node] at hr
          rcases hr with rfl | ⟨_, h, _⟩
          · exact .inl rfl
          · cases h
        · exact hbelow s hs hr
      · rw [if_neg hp] at hs
        exact hbelow s hs hr

/-- The object that is made at the site is a lambda, and the method of the given key is its body. -/
def Binds (home : ClassDecl) (site : CallSite) (key : String) : Prop :=
  (Lambda.ofSite home site).isReference = false ∧ site.targetKey = key

instance (home : ClassDecl) (site : CallSite) (key : String) : Decidable (Binds home site key) :=
  inferInstanceAs (Decidable (_ ∧ _))

/-- The lambdas below the classes of a tree are those of the call sites, each of which is given with
its class. -/
def Sited (t : ClassTree) (sites : List (ClassNode × CallSite)) : Prop :=
  ∀ r ∈ t.tree.rows none 0, r.value.isLambda = false → ∀ key,
    (∃ c ∈ r.children, Targets c key) ↔ ∃ x ∈ sites, x.1.id = r.value.id ∧ Binds x.1.decl x.2 key

theorem Sited.addLambda {t : ClassTree} {sites : List (ClassNode × CallSite)} (h : Sited t sites)
    (home : ClassNode) (i : Nat) (site : CallSite) :
    Sited (t.addLambda home i site).2 (sites ++ [(home, site)]) := by
  intro r hr hlambda key
  have hleaf : ∀ id, Targets { ClassNode.ofLambda home.decl i site with id } key ↔
      Binds home.decl site key := by
    intro id
    constructor
    · rintro ⟨_, hl, hrest⟩
      obtain rfl := Option.some.inj hl
      exact hrest
    · exact fun hbinds => ⟨_, rfl, hbinds⟩
  rcases row_of_modifyChildren_insert hr with hvalue | ⟨s, hs, hvalue, hchildren⟩
  · rw [hvalue] at hlambda
    cases hlambda
  · have hold := h s hs (hvalue ▸ hlambda) key
    rw [hvalue] at hold
    simp only [hchildren, List.mem_append, List.mem_singleton, or_and_right, exists_or, hold,
      and_assoc, exists_eq_left, beq_iff_eq]
    refine or_congr_right ⟨?_, ?_⟩
    · rintro ⟨c, hid, rfl, htargets⟩
      exact ⟨hid.symm, (hleaf _).mp htargets⟩
    · rintro ⟨hid, hbinds⟩
      exact ⟨_, hid.symm, rfl, (hleaf _).mpr hbinds⟩

theorem Sited.addLambdas {t : ClassTree} {sites : List (ClassNode × CallSite)} (h : Sited t sites)
    (home : ClassNode) (xs : List (CallSite × Nat)) :
    Sited (xs.foldl (fun t x => (t.addLambda home x.2 x.1).2) t)
      (sites ++ xs.map fun x => (home, x.1)) := by
  induction xs generalizing t sites with
  | nil => rwa [List.map_nil, List.append_nil]
  | cons x xs ih =>
    have hrest := ih (h.addLambda home x.2 x.1)
    rwa [List.append_assoc] at hrest

/-- Each class gets the lambdas of its own call sites. -/
theorem sited_discoverLambdas {t : ClassTree} (ht : ∀ n ∈ t.nodes, n.lambda = none)
    (r : Renderer σ) : Sited (t.discoverLambdas r)
      ((t.nodes.filter fun n => !n.isLambda).flatMap fun home =>
        (r.callSites home.decl).map (home, ·)) := by
  have hstart : Sited t [] := by
    intro r hr _ key
    constructor
    · rintro ⟨c, hc, l, hl, _⟩
      have hmem := (Tree.children_sublist hr).mem hc
      rw [ht c hmem] at hl
      cases hl
    · rintro ⟨_, h, _⟩
      cases h
  have hall : ∀ (homes : List ClassNode) (t : ClassTree) sites, Sited t sites →
      Sited (homes.foldl (fun t home => (r.callSites home.decl).zipIdx.foldl
          (fun t x => (t.addLambda home x.2 x.1).2) t) t)
        (sites ++ homes.flatMap fun home => (r.callSites home.decl).map (home, ·)) := by
    intro homes
    induction homes with
    | nil =>
      intro t sites h
      rwa [List.flatMap_nil, List.append_nil]
    | cons home homes ih =>
      intro t sites h
      have hmap : (r.callSites home.decl).zipIdx.map (fun x => (home, x.1)) =
          (r.callSites home.decl).map (home, ·) := by
        have hsites := congrArg (List.map fun site => (home, site))
          (List.zipIdx_map_fst 0 (r.callSites home.decl))
        rwa [List.map_map] at hsites
      have hrest := ih _ _ (hmap ▸ h.addLambdas home (r.callSites home.decl).zipIdx)
      rw [List.flatMap_cons]
      rwa [List.append_assoc] at hrest
  exact hall _ t [] hstart

/-- In the tree as it is written, the lambdas below a class are those of its call sites. -/
theorem targets_sprouted {w : Wording} {l : Library} {t : ClassTree}
    (ht : ∀ n ∈ t.nodes, n.Stands w l) (hids : (t.nodes.map (·.id)).Nodup) (f : Renderer σ)
    {r : Tree.Row ClassNode} (hr : r ∈ (t.sprouted f).tree.rows none 0)
    (hlambda : r.value.isLambda = false) (key : String) :
    (∃ c ∈ r.children, Targets c key) ↔
      ∃ site ∈ f.callSites r.value.decl, Binds r.value.decl site key := by
  have hclear : t.clearFailures.nodes = t.nodes.map fun n => { n with failed := false } := by
    rw [ClassTree.nodes, ClassTree.clearFailures, Tree.toList_map]
    rfl
  have hplain : ∀ n ∈ t.clearFailures.nodes, n.lambda = none := by
    intro n hn
    rw [hclear] at hn
    obtain ⟨c, hc, rfl⟩ := List.mem_map.mp hn
    exact (ht c hc).lambda_eq
  have hnodup : (t.clearFailures.nodes.map (·.id)).Nodup := by
    rw [hclear, List.map_map]
    exact hids
  have hmem := ClassTree.mem_of_mem_sprouted (Tree.row_value_mem hr) hlambda
  rw [sited_discoverLambdas hplain f r hr hlambda key]
  constructor
  · rintro ⟨x, hx, hid, hbinds⟩
    obtain ⟨home, hhome, hx⟩ := List.mem_flatMap.mp hx
    obtain ⟨site, hsite, rfl⟩ := List.mem_map.mp hx
    -- Numbers tell classes apart, so the site lies in this one.
    obtain rfl := List.inj_on_of_nodup_map hnodup (List.mem_filter.mp hhome).1 hmem hid
    exact ⟨site, hsite, hbinds⟩
  · rintro ⟨site, hsite, hbinds⟩
    refine ⟨(r.value, site), List.mem_flatMap.mpr ⟨r.value, ?_, List.mem_map_of_mem hsite⟩, rfl,
      hbinds⟩
    rw [List.mem_filter, hlambda]
    exact ⟨hmem, rfl⟩

/-- A class of a file leaves out what is hidden in it and the bodies of its lambdas. -/
theorem mem_hidden_iff {w : Wording} {l : Library} {t : ClassTree}
    (ht : ∀ n ∈ t.nodes, n.Stands w l) (hids : (t.nodes.map (·.id)).Nodup) {e : Emitted}
    (he : e ∈ entered (walk k level (t.sprouted k.renderer).tree))
    (hlambda : e.node.isLambda = false) (key : String) :
    key ∈ e.hidden ↔ key ∈ k.renderer.hidden e.node.decl ∨
      ∃ site ∈ k.renderer.callSites e.node.decl, Binds e.node.decl site key := by
  obtain ⟨r, hr, hvalue, hhidden⟩ := row_of_mem_entered he none 0
  rw [hhidden, ← hvalue]
  exact or_congr_right (targets_sprouted ht hids k.renderer hr (hvalue ▸ hlambda) key)

end Lambdas

end TypeSketch

end ClassSketch
