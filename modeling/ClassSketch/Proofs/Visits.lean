import ClassSketch.Proofs.Grafting
import ClassSketch.Proofs.Heads
import ClassSketch.Proofs.Pooling
import ClassSketch.Proofs.Scopes

/-! Runs over whole trees. A sketch comes to the methods of the classes that it writes, one after
another. A relation between two runs, indexed by the methods that they came to so far, holds at
the end if what is written around bodies keeps it and each method takes it one visit further. -/

namespace ClassSketch

open Text (Within)

/-- A class whose members are written: their level, and the keys of members that are left out. -/
structure Emitted where
  level : Nat
  node : ClassNode
  hidden : List String

/-- A method that a sketch comes to, with its class and the level of its head. -/
structure Visit where
  level : Nat
  node : ClassNode
  method : MethodDecl

namespace Visit

variable {σ : Type}

def shape (k : Kit σ) (v : Visit) : MethodShape := .ofMethod k v.node v.method

def hasBody (k : Kit σ) (v : Visit) : Bool := (v.shape k).hasBody

/-- What a renderer is told about the body. -/
def site (o : Options) (v : Visit) : BodySite :=
  ⟨v.node.decl, v.method, v.level + 1, o.layout, v.node.name⟩

/-- Methods that are neither abstract nor native have a body, and so do static initializers. -/
theorem hasBody_iff (k : Kit σ) (v : Visit) :
    v.hasBody k = true ↔ v.method.isStaticInit = true ∨
      v.method.access.hasSome (AccessFlags.abstractFlag.union .nativeFlag) = false := by
  have hflags : v.hasBody k = !(MethodShape.effectiveFlags v.method).hasSome
      (AccessFlags.abstractFlag.union .nativeFlag) := rfl
  rw [hflags, Bool.not_eq_true', MethodShape.effectiveFlags]
  by_cases hinit : v.method.isStaticInit = true
  · have hnone : AccessFlags.staticFlag.bits &&&
        (AccessFlags.abstractFlag.union .nativeFlag).bits = 0#16 := by decide
    simp [hinit, AccessFlags.hasSome, AccessFlags.inter, BitVec.and_assoc, hnone]
  · have hsame : ~~~AccessFlags.strictFlag.bits &&&
        (AccessFlags.abstractFlag.union .nativeFlag).bits =
          (AccessFlags.abstractFlag.union .nativeFlag).bits := by decide
    by_cases hnative : v.method.access.has .nativeFlag = true
    · simp [hinit, hnative, AccessFlags.hasSome, AccessFlags.without, BitVec.and_assoc, hsame]
    · simp [hinit, hnative]

end Visit

def Emitted.visits (o : Options) (e : Emitted) : List Visit :=
  (e.node.decl.methods.filter fun m => !MethodSketch.isSkipped o e.hidden m).map
    (⟨e.level, e.node, ·⟩)

namespace TypeSketch

variable {σ : Type}

/-- The level of the members of a class. -/
def memberLevel (n : ClassNode) (level : Nat) : Nat := if isFacade n.decl then level else level + 1

mutual

/-- The classes that are written with a class, each before those inside it. A module has no
members. -/
def emitted (k : Kit σ) (level : Nat) : Tree ClassNode → List Emitted
  | .node n children =>
    if (moduleOf? n.decl).isSome then []
    else
      ⟨memberLevel n level, n, k.renderer.hidden n.decl ++ lambdaTargets children⟩ ::
        emittedAll k (k.renderer.hidden n.decl) (memberLevel n level) children

def emittedAll (k : Kit σ) (hidden : List String) (level : Nat) :
    List (Tree ClassNode) → List Emitted
  | [] => []
  | t :: ts =>
    if isShownMember k.options hidden t.value then emitted k level t ++ emittedAll k hidden level ts
    else emittedAll k hidden level ts

end

/-- The methods that a sketch of a class comes to, in their order. -/
def visits (k : Kit σ) (level : Nat) (t : Tree ClassNode) : List Visit :=
  (emitted k level t).flatMap (Emitted.visits k.options)

/-- The methods of a class and of the classes inside it. -/
def insideVisits (k : Kit σ) (level : Nat) (n : ClassNode) (children : List (Tree ClassNode)) :
    List Visit :=
  Emitted.visits k.options ⟨level, n, k.renderer.hidden n.decl ++ lambdaTargets children⟩ ++
    (emittedAll k (k.renderer.hidden n.decl) level children).flatMap (Emitted.visits k.options)

theorem visits_node (k : Kit σ) (level : Nat) (n : ClassNode) (children : List (Tree ClassNode)) :
    visits k level (.node n children) =
      if (moduleOf? n.decl).isSome then []
      else insideVisits k (memberLevel n level) n children := by
  rw [visits, emitted]
  split
  · rfl
  · rw [List.flatMap_cons, insideVisits]

/-- Classes are written in preorder, and some are left out. -/
theorem emitted_sublist (k : Kit σ) (level : Nat) (t : Tree ClassNode) :
    ((emitted k level t).map (·.node)).Sublist t.toList := by
  induction t generalizing level with
  | node n ts ih =>
    have hall : ∀ hidden level, ((emittedAll k hidden level ts).map (·.node)).Sublist
        (ts.flatMap Tree.toList) := by
      intro hidden level
      induction ts with
      | nil => exact .slnil
      | cons t ts ihs =>
        have hts := ihs fun t ht => ih t (List.mem_cons_of_mem _ ht)
        rw [emittedAll, List.flatMap_cons]
        split
        · rw [List.map_append]
          exact (ih t List.mem_cons_self level).append hts
        · exact hts.trans (List.sublist_append_right _ _)
    rw [emitted, Tree.toList_node]
    split
    · exact List.nil_sublist _
    · exact (hall _ _).cons_cons n

theorem node_mem_of_mem_visits {k : Kit σ} {level : Nat} {t : Tree ClassNode} {v : Visit}
    (hv : v ∈ visits k level t) : v.node ∈ t.toList := by
  obtain ⟨e, he, hv⟩ := List.mem_flatMap.mp hv
  obtain ⟨m, _, rfl⟩ := List.mem_map.mp hv
  have hnode : e.node ∈ (emitted k level t).map (·.node) := List.mem_map_of_mem he
  exact (emitted_sublist k level t).mem hnode

theorem method_mem_of_mem_visits {k : Kit σ} {level : Nat} {t : Tree ClassNode} {v : Visit}
    (hv : v ∈ visits k level t) : v.method ∈ v.node.decl.methods := by
  obtain ⟨e, _, hv⟩ := List.mem_flatMap.mp hv
  obtain ⟨m, hm, rfl⟩ := List.mem_map.mp hv
  exact (List.mem_filter.mp hm).1

/-- What is written with a member is written with the class around it. -/
theorem mem_visits_of_isShownMember {k : Kit σ} {hidden : List String} {level : Nat}
    {t : Tree ClassNode} {ts : List (Tree ClassNode)} (ht : t ∈ ts)
    (hshown : isShownMember k.options hidden t.value = true) {v : Visit}
    (hv : v ∈ visits k level t) :
    v ∈ (emittedAll k hidden level ts).flatMap (Emitted.visits k.options) := by
  induction ts with
  | nil => cases ht
  | cons s ts ih =>
    rw [emittedAll]
    rcases List.mem_cons.mp ht with rfl | ht
    · rw [if_pos hshown, List.flatMap_append]
      exact List.mem_append_left _ hv
    · split
      · rw [List.flatMap_append]
        exact List.mem_append_right _ (ih ht)
      · exact ih ht

end TypeSketch

/-- The kit with another way to render bodies. -/
def Kit.withBody {σ : Type} (k : Kit σ)
    (f : BodySite → Trace → StateM σ (Except BodyFailure Body × Trace)) : Kit σ :=
  { k with renderer := { k.renderer with body := f } }

section WithBody

variable {σ : Type} (k : Kit σ)
  (f : BodySite → Trace → StateM σ (Except BodyFailure Body × Trace))

theorem FieldSketch.sketchAll_withBody : sketchAll (k.withBody f) = sketchAll k := by
  have hfrom : ∀ c level inGroup fs,
      sketchFrom (k.withBody f) c level inGroup fs = sketchFrom k c level inGroup fs := by
    intro c level inGroup fs
    induction fs generalizing inGroup with
    | nil => rfl
    | cons g fs ih =>
      simp only [sketchFrom, ih]
      rfl
  funext hidden c level
  simp only [sketchAll, hfrom]
  rfl

theorem MethodSketch.headText_withBody : headText (k.withBody f) = headText k := by
  have hparams : ∀ c m varargs skip position raws ts,
      paramTexts (k.withBody f) c m varargs skip position raws ts =
        paramTexts k c m varargs skip position raws ts := by
    intro c m varargs skip position raws ts
    induction raws generalizing position ts with
    | nil => rfl
    | cons raw raws ih =>
      cases ts with
      | nil => rfl
      | cons t ts =>
        simp only [paramTexts, ih]
        rfl
  funext n m s
  simp only [headText, signatureText, hparams]

end WithBody

namespace Draft

/-- What strokes leave alone. -/
def frame (d : Draft) : LineMap × Scope × List Nat := (d.lineMap, d.scope, d.failed)

end Draft

def Framed {σ : Type} (R : Bench σ → Bench σ → Prop) (x x' : LineMap × Scope × List Nat)
    (b b' : Bench σ) : Prop :=
  R b b' ∧ b.draft.frame = x ∧ b'.draft.frame = x'

section Framing

variable {σ : Type} {w : Wording} {fits : String → Prop} {L : Nat → Nat → Prop}
  {C : ClassDecl → Prop} {R R' : Bench σ → Bench σ → Prop}

theorem Strokes.framed (h : Strokes w fits L C R) (x x' : LineMap × Scope × List Nat) :
    Strokes w fits L C (Framed R x x') where
  fits_of_within := h.fits_of_within
  fits_append := h.fits_append
  plain s hp hL hs hb := ⟨h.plain s hp hL hs hb.1, hb.2.1, hb.2.2⟩
  naming name hn b b' hb :=
    ⟨(h.naming name hn b b' hb.1).1, (h.naming name hn b b' hb.1).2, hb.2.1, hb.2.2⟩
  signature c hC hc b b' hb :=
    ⟨(h.signature c hC hc b b' hb.1).1, (h.signature c hC hc b b' hb.1).2, hb.2.1, hb.2.2⟩
  overriding c m ps b b' hb := by
    obtain ⟨he, hr⟩ := h.overriding c m ps b b' hb.1
    refine ⟨he, hr, ?_, ?_⟩
    · rw [Override.draft_check]
      exact hb.2.1
    · rw [Override.draft_check]
      exact hb.2.2

theorem Turns.framed {brace : Brace} (h : Turns fits L brace R R')
    (x x' : LineMap × Scope × List Nat) : Turns fits L brace (Framed R x x') (Framed R' x x') :=
  fun _ _ _ _ s hs hL ht hb => ⟨h s hs hL ht hb.1, hb.2.1, hb.2.2⟩

end Framing

namespace Bench

variable {σ : Type}

/-- Goes back to the text of an earlier state. -/
def rewindTo (b before : Bench σ) : Bench σ :=
  { b with draft := Draft.rewind before.draft b.draft }

/-- Notes that a body of the class could not be rendered, if so it was. -/
def note (n : ClassNode) (o : MethodSketch.Outcome) (b : Bench σ) : Bench σ :=
  match o with
  | .failed => { b with draft := { b.draft with failed := n.id :: b.draft.failed } }
  | _ => b

end Bench

namespace MethodSketch

variable {σ : Type}

/-- The head of a method with an opening brace, and its body. -/
def openBody (k : Kit σ) (v : Visit) (head : String) : SketchM σ Outcome := do
  SketchM.edit (Draft.writeLine v.level (head ++ " \x7b"))
  sketchBody k v.node v.method (v.shape k).visible.length v.level

/-- One method in its turn: says whether anything stands there now. -/
def sketchNext (k : Kit σ) (v : Visit) (content : Bool) : SketchM σ Bool := do
  let before := (← get).draft
  SketchM.editWhen content Draft.endLine
  match ← sketchOne k v.node v.method v.level with
  | .hidden =>
    SketchM.edit (Draft.rewind before)
    return content
  | .written => return true
  | .failed =>
    SketchM.edit fun d => { d with failed := v.node.id :: d.failed }
    return true

theorem sketchFrom_cons (k : Kit σ) (n : ClassNode) (level : Nat) (content : Bool) (m : MethodDecl)
    (ms : List MethodDecl) : sketchFrom k n level content (m :: ms) =
      sketchNext k ⟨level, n, m⟩ content >>= fun content => sketchFrom k n level content ms := by
  funext b
  simp only [sketchFrom, sketchNext, bind, StateT.bind, get, getThe, MonadStateOf.get, StateT.get,
    pure]
  rcases SketchM.editWhen content Draft.endLine b with ⟨_, b₁⟩
  dsimp only
  rcases sketchOne k n m level b₁ with ⟨o, b₂⟩
  cases o <;> rfl

/-- The lines before the head, and the text of the head. -/
def leadAndHead (k : Kit σ) (v : Visit) : SketchM σ String := do
  sketchLead v.method (v.shape k) v.level
  headText k v.node v.method (v.shape k)

/-- A method without a body is its head, perhaps with a default value. -/
def bareLine (m : MethodDecl) (head : String) : String :=
  head ++ match m.annotationDefault with
    | some value => " default " ++ value
    | none => ""

/-- What is written of a method after the lines before its head. -/
def afterHead (k : Kit σ) (v : Visit) (head : String) : SketchM σ Outcome :=
  if v.hasBody k then openBody k v head
  else do
    SketchM.edit (Draft.writeLine v.level (bareLine v.method head))
    return .written

theorem sketchOne_apply (k : Kit σ) (v : Visit) (b : Bench σ) :
    sketchOne k v.node v.method v.level b =
      let lead := leadAndHead k v (Scoped.withScope b (b.draft.scope.enterMethod v.method.key))
      let rest := afterHead k v lead.1 lead.2
      (rest.1, Scoped.withScope rest.2 b.draft.scope) := by
  have hscope := (Asks.sketchOne k v.node v.method v.level).scope_eq (b := b)
  exact Prod.ext rfl (congrArg (Scoped.withScope (sketchOne k v.node v.method v.level b).2) hscope)

theorem sketchNext_apply (k : Kit σ) (v : Visit) (content : Bool) (b : Bench σ) :
    sketchNext k v content b =
      let r := sketchOne k v.node v.method v.level (SketchM.editWhen content Draft.endLine b).2
      if r.1 = .hidden then (content, r.2.rewindTo b) else (true, r.2.note v.node r.1) := by
  simp only [sketchNext, bind, StateT.bind, get, getThe, MonadStateOf.get, StateT.get, pure]
  rcases SketchM.editWhen content Draft.endLine b with ⟨_, b₁⟩
  dsimp only
  rcases sketchOne k v.node v.method v.level b₁ with ⟨o, b₂⟩
  cases o <;> rfl

end MethodSketch

namespace TypeSketch

variable {σ : Type}

/-- The members of a class. -/
def sketchInside (k : Kit σ) (level : Nat) (n : ClassNode) (children : List (Tree ClassNode)) :
    SketchM σ Unit := do
  let hidden := k.renderer.hidden n.decl
  let content ← FieldSketch.sketchAll k hidden n.decl level
  let content ← MethodSketch.sketchAll k n (hidden ++ lambdaTargets children) level content
  sketchMembers k hidden level content children

/-- A class that is no module. -/
def sketchPlain (k : Kit σ) (level : Nat) (n : ClassNode) (children : List (Tree ClassNode)) :
    SketchM σ Unit :=
  if isFacade n.decl then sketchInside k level n children
  else do
    Header.sketch k n level
    sketchInside k (level + 1) n children
    SketchM.edit (closingBrace n level)

theorem sketch_eq_inScope (k : Kit σ) (level : Nat) (n : ClassNode)
    (children : List (Tree ClassNode)) : sketch k level (.node n children) =
      inScope (.ofClass n.name) (match moduleOf? n.decl with
        | some m => SketchM.edit (ModuleSketch.write n.decl.annotations m)
        | none => sketchPlain k level n children) := by
  rw [sketch]
  rfl

theorem sketch_node (k : Kit σ) (level : Nat) (n : ClassNode) (children : List (Tree ClassNode))
    (b : Bench σ) : (sketch k level (.node n children) b).2 =
      Scoped.withScope ((match moduleOf? n.decl with
        | some m => SketchM.edit (ModuleSketch.write n.decl.annotations m)
        | none => sketchPlain k level n children)
          (Scoped.withScope b (b.draft.scope.enterClass n.name))).2 b.draft.scope := by
  rw [sketch_eq_inScope]
  rfl

end TypeSketch

/-- A text over the alphabet that is the head of the method, for what is given out by then. -/
structure Visit.Headed {σ : Type} (w : Wording) (k : Kit σ) (v : Visit) (head : String) : Prop where
  within : Within w.letter head
  isHead : ∃ b, (MethodSketch.headText k v.node v.method (v.shape k) b).1 = head

/-- How a relation fares over a method with a body, from states from before the method and the
results of the two runs: the text of a hidden method has to go, failures are noted. -/
structure Settles {σ : Type} (R : Bench σ → Bench σ → Prop) (n : ClassNode) (before before' : Bench σ)
    (r r' : MethodSketch.Outcome × Bench σ) : Prop where
  hidden_iff : r.1 = .hidden ↔ r'.1 = .hidden
  hidden : r.1 = .hidden → R (r.2.rewindTo before) (r'.2.rewindTo before')
  shown : r.1 ≠ .hidden → R (r.2.note n r.1) (r'.2.note n r'.1)

/-- A relation between runs, indexed by the visits so far and by the number of open braces: each
visit takes it one further, and each brace one up or down. -/
structure Tracks {σ : Type} (w : Wording) (fits : String → Prop) (L : Nat → Nat → Prop)
    (C : ClassDecl → Prop) (k : Kit σ)
    (f : BodySite → Trace → StateM σ (Except BodyFailure Body × Trace)) (P : Visit → Prop)
    (R : List Visit → Nat → Bench σ → Bench σ → Prop) : Prop where
  strokes : ∀ done depth, Strokes w fits L C (R done depth)
  opens : ∀ done depth, Turns fits L .opening (R done depth) (R done (depth + 1))
  closes : ∀ done depth, Turns fits L .closing (R done (depth + 1)) (R done depth)
  values : ∀ c, C c → ∀ g ∈ c.fields, k.Values fits c g
  scope_eq : ∀ {done depth b b'}, R done depth b b' → b.draft.scope = b'.draft.scope
  scope_free : ∀ {done depth b b'} (s : Scope), R done depth b b' →
    R done depth (Scoped.withScope b s) (Scoped.withScope b' s)
  bodiless : ∀ {done depth v b b'}, P v → v.hasBody k = false → R done depth b b' →
    R (done ++ [v]) depth b b'
  body : ∀ {done depth v level' head before before' b b'}, P v → v.hasBody k = true →
    L v.level level' → v.Headed w k head → R done depth before before' → R done depth b b' →
    b.draft.lineMap = before.draft.lineMap → b'.draft.lineMap = before'.draft.lineMap →
    b.draft.scope.className = some v.node.name →
    Settles (R (done ++ [v]) depth) v.node before before' (MethodSketch.openBody k v head b)
      (MethodSketch.openBody (k.withBody f) { v with level := level' } head b')

/-- A relation between runs that does not look at braces. -/
structure Follows {σ : Type} (w : Wording) (L : Nat → Nat → Prop) (C : ClassDecl → Prop) (k : Kit σ)
    (f : BodySite → Trace → StateM σ (Except BodyFailure Body × Trace)) (P : Visit → Prop)
    (R : List Visit → Bench σ → Bench σ → Prop) : Prop where
  steps : ∀ done, Steps w L C (R done)
  scope_eq : ∀ {done b b'}, R done b b' → b.draft.scope = b'.draft.scope
  scope_free : ∀ {done b b'} (s : Scope), R done b b' →
    R done (Scoped.withScope b s) (Scoped.withScope b' s)
  bodiless : ∀ {done v b b'}, P v → v.hasBody k = false → R done b b' → R (done ++ [v]) b b'
  body : ∀ {done v level' head before before' b b'}, P v → v.hasBody k = true → L v.level level' →
    v.Headed w k head → R done before before' → R done b b' →
    b.draft.lineMap = before.draft.lineMap → b'.draft.lineMap = before'.draft.lineMap →
    b.draft.scope.className = some v.node.name →
    Settles (R (done ++ [v])) v.node before before' (MethodSketch.openBody k v head b)
      (MethodSketch.openBody (k.withBody f) { v with level := level' } head b')

theorem Follows.tracks {σ : Type} {w : Wording} {L : Nat → Nat → Prop} {C : ClassDecl → Prop}
    {k : Kit σ} {f : BodySite → Trace → StateM σ (Except BodyFailure Body × Trace)}
    {P : Visit → Prop} {R : List Visit → Bench σ → Bench σ → Prop} (h : Follows w L C k f P R)
    (hk : k.Worded w) : Tracks w w.good L C k f P fun done _ => R done where
  strokes done _ := (h.steps done).toStrokes
  opens done _ := (h.steps done).turns _
  closes done _ := (h.steps done).turns _
  values c _ g _ := hk.values c g
  scope_eq := h.scope_eq
  scope_free := h.scope_free
  bodiless := h.bodiless
  body := h.body

/-- Related states in the class of the given name. -/
def Inside {σ : Type} (R : Bench σ → Bench σ → Prop) (name : String) (b b' : Bench σ) : Prop :=
  R b b' ∧ b.draft.scope.className = some name

namespace Tracks

variable {σ : Type} {w : Wording} {fits : String → Prop} {L : Nat → Nat → Prop}
  {C : ClassDecl → Prop} {k : Kit σ}
  {f : BodySite → Trace → StateM σ (Except BodyFailure Body × Trace)} {P : Visit → Prop}
  {R : List Visit → Nat → Bench σ → Bench σ → Prop} {depth level' : Nat}

theorem leadAndHead {S : Bench σ → Bench σ → Prop} (h : Strokes w fits L C S) (hk : k.Worded w)
    {v : Visit} (hL : L v.level level') (hm : w.Holds v.method.texts) :
    Keeps S (Same (Within w.letter)) (MethodSketch.leadAndHead k v)
      (MethodSketch.leadAndHead (k.withBody f) { v with level := level' }) := by
  have hs : (v.shape k).Worded w := MethodShape.ofMethod_worded k v.node hm
  rw [MethodSketch.leadAndHead, MethodSketch.leadAndHead, MethodSketch.headText_withBody]
  exact (h.sketchLead hL hm hs).seq (h.headText hk v.node hm hs)

theorem within_bareLine {m : MethodDecl} (hm : w.Holds m.texts) {head : String}
    (hhead : Within w.letter head) : Within w.letter (MethodSketch.bareLine m head) := by
  refine Text.within_append.mpr ⟨hhead, ?_⟩
  cases hd : m.annotationDefault with
  | none => exact w.fixed (by decide)
  | some value =>
    exact Text.within_append.mpr ⟨w.fixed (by decide), hm _ (by simp [MethodDecl.texts, hd])⟩

/-- The scope may change after a method. -/
theorem settles_withScope (h : Tracks w fits L C k f P R) {done : List Visit} {n : ClassNode}
    {before before' : Bench σ} {r r' : MethodSketch.Outcome × Bench σ}
    (hr : Settles (R done depth) n before before' r r') (s : Scope) :
    Settles (R done depth) n before before' (r.1, Scoped.withScope r.2 s)
      (r'.1, Scoped.withScope r'.2 s) := by
  have hnote : ∀ (o : MethodSketch.Outcome) (b : Bench σ) (s : Scope),
      Bench.note n o (Scoped.withScope b s) = Scoped.withScope (b.note n o) s := by
    intro o b s
    cases o <;> rfl
  refine ⟨hr.hidden_iff, fun he => h.scope_free s (hr.hidden he), fun hne => ?_⟩
  simp only [hnote]
  exact h.scope_free s (hr.shown hne)

theorem afterHead (h : Tracks w fits L C k f P R) {v : Visit} (hP : P v) (hL : L v.level level')
    (hm : w.Holds v.method.texts) {head : String} (hhead : v.Headed w k head)
    {done : List Visit} {before before' b b' : Bench σ} (hbefore : R done depth before before')
    (hb : R done depth b b') (hmap : b.draft.lineMap = before.draft.lineMap)
    (hmap' : b'.draft.lineMap = before'.draft.lineMap)
    (hs : b.draft.scope.className = some v.node.name) :
    Settles (R (done ++ [v]) depth) v.node before before' (MethodSketch.afterHead k v head b)
      (MethodSketch.afterHead (k.withBody f) { v with level := level' } head b') := by
  have hsame : Visit.hasBody (k.withBody f) { v with level := level' } = v.hasBody k := rfl
  by_cases hbody : v.hasBody k = true
  · rw [MethodSketch.afterHead, MethodSketch.afterHead, hsame, if_pos hbody, if_pos hbody]
    exact h.body hP hbody hL hhead hbefore hb hmap hmap' hs
  · rw [MethodSketch.afterHead, MethodSketch.afterHead, hsame, if_neg hbody, if_neg hbody]
    have hfits := (h.strokes done depth).fits_of_within _ (within_bareLine hm hhead.within)
    have hline := (h.strokes done depth).writeLine hL hfits hb
    exact ⟨Iff.rfl, (fun he => nomatch he),
      fun _ => h.bodiless hP (Bool.eq_false_iff.mpr hbody) hline⟩

/-- A method with or without a body, from the states before it. -/
theorem sketchOne (h : Tracks w fits L C k f P R) (hk : k.Worded w) {v : Visit} (hP : P v)
    (hL : L v.level level') (hm : w.Holds v.method.texts) {done : List Visit}
    {before before' b b' : Bench σ} (hbefore : R done depth before before') (hb : R done depth b b')
    (hmap : b.draft.lineMap = before.draft.lineMap)
    (hmap' : b'.draft.lineMap = before'.draft.lineMap)
    (hs : b.draft.scope.className = some v.node.name) :
    Settles (R (done ++ [v]) depth) v.node before before'
      (MethodSketch.sketchOne k v.node v.method v.level b)
      (MethodSketch.sketchOne (k.withBody f) v.node v.method level' b') := by
  rw [MethodSketch.sketchOne_apply, MethodSketch.sketchOne_apply (k.withBody f)
    { v with level := level' }, ← h.scope_eq hb]
  have hc := h.scope_free (b.draft.scope.enterMethod v.method.key) hb
  have hkeep := leadAndHead (f := f) ((h.strokes done depth).framed _ _) hk hL hm _ _ ⟨hc, rfl, rfl⟩
  have hhead : ∀ c, ∃ d, (MethodSketch.headText k v.node v.method (v.shape k) d).1 =
      (MethodSketch.leadAndHead k v c).1 := fun c => ⟨_, rfl⟩
  replace hhead := hhead (Scoped.withScope b (b.draft.scope.enterMethod v.method.key))
  generalize MethodSketch.leadAndHead k v _ = lead at hkeep hhead ⊢
  generalize MethodSketch.leadAndHead (k.withBody f) _ _ = lead' at hkeep ⊢
  obtain ⟨head, d⟩ := lead
  obtain ⟨head', d'⟩ := lead'
  obtain ⟨⟨rfl, hletters⟩, hr, hframe, hframe'⟩ := hkeep
  simp only [Draft.frame, Prod.mk.injEq] at hframe hframe'
  have hafter := h.afterHead hP hL hm ⟨hletters, hhead⟩ hbefore hr (hframe.1.trans hmap)
    (hframe'.1.trans hmap') (hframe.2.1 ▸ hs)
  exact h.settles_withScope hafter b.draft.scope

theorem sketchNext (h : Tracks w fits L C k f P R) (hk : k.Worded w) {v : Visit} (hP : P v)
    (hL : L v.level level') (hm : w.Holds v.method.texts) (content : Bool) {done : List Visit}
    {b b' : Bench σ} (hb : Inside (R done depth) v.node.name b b') :
    (MethodSketch.sketchNext k v content b).1 =
        (MethodSketch.sketchNext (k.withBody f) { v with level := level' } content b').1 ∧
      Inside (R (done ++ [v]) depth) v.node.name (MethodSketch.sketchNext k v content b).2
        (MethodSketch.sketchNext (k.withBody f) { v with level := level' } content b').2 := by
  obtain ⟨hr, hs⟩ := hb
  have hblank := Steps.editWhen content Draft.endLine Draft.endLine
    (fun _ _ hb => ((h.strokes done depth).framed b.draft.frame b'.draft.frame).endLine hL hb) b b'
    ⟨hr, rfl, rfl⟩
  rw [MethodSketch.sketchNext_apply, MethodSketch.sketchNext_apply]
  generalize (SketchM.editWhen content Draft.endLine b).2 = c at hblank ⊢
  generalize (SketchM.editWhen content Draft.endLine b').2 = c' at hblank ⊢
  obtain ⟨_, hc, hframe, hframe'⟩ := hblank
  simp only [Draft.frame, Prod.mk.injEq] at hframe hframe'
  have hone := h.sketchOne hk hP hL hm hr hc hframe.1 hframe'.1 (hframe.2.1 ▸ hs)
  have hscope : (MethodSketch.sketchOne k v.node v.method v.level c).2.draft.scope =
      c.draft.scope := (Asks.sketchOne k v.node v.method v.level).scope_eq
  rw [hframe.2.1] at hscope
  dsimp only
  generalize MethodSketch.sketchOne k v.node v.method v.level c = r at hone hscope ⊢
  generalize MethodSketch.sketchOne (k.withBody f) v.node v.method level' c' = r' at hone ⊢
  have hnote : ∀ (o : MethodSketch.Outcome) (b : Bench σ),
      (b.note v.node o).draft.scope = b.draft.scope := by
    intro o b
    cases o <;> rfl
  by_cases ho : r.1 = .hidden
  · rw [if_pos ho, if_pos (hone.hidden_iff.mp ho)]
    exact ⟨rfl, hone.hidden ho, (congrArg _ hscope).trans hs⟩
  · rw [if_neg ho, if_neg (mt hone.hidden_iff.mpr ho)]
    refine ⟨rfl, hone.shown ho, ?_⟩
    rw [hnote, hscope, hs]

theorem sketchMethods (h : Tracks w fits L C k f P R) (hk : k.Worded w) {n : ClassNode}
    {level : Nat} (hL : L level level') {ms : List MethodDecl} (hP : ∀ m ∈ ms, P ⟨level, n, m⟩)
    (hms : ∀ m ∈ ms, w.Holds m.texts) (content : Bool) {done : List Visit} {b b' : Bench σ}
    (hb : Inside (R done depth) n.name b b') :
    (MethodSketch.sketchFrom k n level content ms b).1 =
        (MethodSketch.sketchFrom (k.withBody f) n level' content ms b').1 ∧
      Inside (R (done ++ ms.map (⟨level, n, ·⟩)) depth) n.name
        (MethodSketch.sketchFrom k n level content ms b).2
        (MethodSketch.sketchFrom (k.withBody f) n level' content ms b').2 := by
  induction ms generalizing content done b b' with
  | nil =>
    rw [List.map_nil, List.append_nil]
    exact ⟨rfl, hb⟩
  | cons m ms ih =>
    have hfirst := h.sketchNext hk (v := ⟨level, n, m⟩) (hP m List.mem_cons_self) hL
      (hms m List.mem_cons_self) content hb
    rw [MethodSketch.sketchFrom_cons, MethodSketch.sketchFrom_cons]
    simp only [bind, StateT.bind]
    generalize MethodSketch.sketchNext k ⟨level, n, m⟩ content b = r at hfirst ⊢
    generalize MethodSketch.sketchNext (k.withBody f) ⟨level', n, m⟩ content b' = r' at hfirst ⊢
    obtain ⟨content₁, c⟩ := r
    obtain ⟨content₁', c'⟩ := r'
    obtain ⟨rfl, hin⟩ := hfirst
    have hrest := ih (fun m hm => hP m (List.mem_cons_of_mem _ hm))
      (fun m hm => hms m (List.mem_cons_of_mem _ hm)) content₁ hin
    rwa [List.map_cons, List.append_cons]

theorem sketchAll (h : Tracks w fits L C k f P R) (hk : k.Worded w) {e : Emitted}
    (hL : L e.level level') (hn : w.Holds e.node.texts) (hP : ∀ v ∈ e.visits k.options, P v)
    (content : Bool)
    {done : List Visit} {b b' : Bench σ} (hb : Inside (R done depth) e.node.name b b') :
    (MethodSketch.sketchAll k e.node e.hidden e.level content b).1 =
        (MethodSketch.sketchAll (k.withBody f) e.node e.hidden level' content b').1 ∧
      Inside (R (done ++ e.visits k.options) depth) e.node.name
        (MethodSketch.sketchAll k e.node e.hidden e.level content b).2
        (MethodSketch.sketchAll (k.withBody f) e.node e.hidden level' content b').2 :=
  h.sketchMethods hk hL (fun _ hm => hP _ (List.mem_map_of_mem hm))
    (fun _ hm => e.node.decl.method_holds (e.node.decl_holds hn) (List.mem_filter.mp hm).1) content hb

/-- The actions take the relation over the visits. -/
def Takes (R : List Visit → Nat → Bench σ → Bench σ → Prop) (vs : List Visit)
    (a a' : SketchM σ Unit) : Prop :=
  ∀ done depth b b', R done depth b b' → R (done ++ vs) depth (a b).2 (a' b').2

theorem sketchMembers (h : Tracks w fits L C k f P R) (hidden : List String) {level : Nat}
    (hL : L level level') {ts : List (Tree ClassNode)}
    (hts : ∀ t ∈ ts, (∀ v ∈ TypeSketch.visits k level t, P v) →
      Takes R (TypeSketch.visits k level t) (TypeSketch.sketch k level t)
        (TypeSketch.sketch (k.withBody f) level' t))
    (hP : ∀ v ∈ (TypeSketch.emittedAll k hidden level ts).flatMap (Emitted.visits k.options), P v)
    (content : Bool) :
    Takes R ((TypeSketch.emittedAll k hidden level ts).flatMap (Emitted.visits k.options))
      (TypeSketch.sketchMembers k hidden level content ts)
      (TypeSketch.sketchMembers (k.withBody f) hidden level' content ts) := by
  induction ts generalizing content with
  | nil =>
    intro done depth b b' hb
    rw [TypeSketch.emittedAll, List.flatMap_nil, List.append_nil, TypeSketch.sketchMembers,
      TypeSketch.sketchMembers]
    exact hb
  | cons t ts ih =>
    have htail : ∀ s ∈ ts, _ := fun s hs => hts s (List.mem_cons_of_mem _ hs)
    intro done depth b b' hb
    rw [TypeSketch.sketchMembers, TypeSketch.sketchMembers]
    by_cases hshown : TypeSketch.isShownMember k.options hidden t.value = true
    · have hshown' : TypeSketch.isShownMember (k.withBody f).options hidden t.value = true := hshown
      rw [TypeSketch.emittedAll, if_pos hshown, List.flatMap_append] at hP ⊢
      rw [if_pos hshown, if_pos hshown', ← List.append_assoc]
      have hblank := Steps.editWhen content Draft.endLine Draft.endLine
        (fun _ _ hb => (h.strokes done depth).endLine hL hb) b b' hb
      have hfirst := hts t List.mem_cons_self (fun v hv => hP v (List.mem_append_left _ hv)) done
        depth _ _ hblank.2
      exact ih htail (fun v hv => hP v (List.mem_append_right _ hv)) true _ _ _ _ hfirst
    · have hshown' : ¬ TypeSketch.isShownMember (k.withBody f).options hidden t.value = true := hshown
      rw [TypeSketch.emittedAll, if_neg hshown] at hP ⊢
      rw [if_neg hshown, if_neg hshown']
      exact ih htail hP content done depth b b' hb

theorem sketchInside (h : Tracks w fits L C k f P R) (hk : k.Worded w) {n : ClassNode} {level : Nat}
    (hL : L level level') {ts : List (Tree ClassNode)} (hC : C n.decl) (hn : w.Holds n.texts)
    (hts : ∀ t ∈ ts, (∀ v ∈ TypeSketch.visits k level t, P v) →
      Takes R (TypeSketch.visits k level t) (TypeSketch.sketch k level t)
        (TypeSketch.sketch (k.withBody f) level' t))
    (hP : ∀ v ∈ TypeSketch.insideVisits k level n ts, P v) {done : List Visit} {b b' : Bench σ}
    (hb : Inside (R done depth) n.name b b') :
    R (done ++ TypeSketch.insideVisits k level n ts) depth
      (TypeSketch.sketchInside k level n ts b).2
      (TypeSketch.sketchInside (k.withBody f) level' n ts b').2 := by
  have hfields := ((h.strokes done depth).framed b.draft.frame b'.draft.frame).sketchFields hL
    (k.renderer.hidden n.decl) (h.values n.decl hC) (n.decl_holds hn) b b' ⟨hb.1, rfl, rfl⟩
  rw [TypeSketch.sketchInside, TypeSketch.sketchInside, FieldSketch.sketchAll_withBody]
  have hhidden : (k.withBody f).renderer.hidden = k.renderer.hidden := rfl
  simp only [bind, StateT.bind, hhidden]
  generalize FieldSketch.sketchAll k (k.renderer.hidden n.decl) n.decl level b = r at hfields ⊢
  generalize FieldSketch.sketchAll k (k.renderer.hidden n.decl) n.decl level' b' = r' at hfields ⊢
  obtain ⟨content, c⟩ := r
  obtain ⟨_, c'⟩ := r'
  obtain ⟨rfl, hr, hframe, hframe'⟩ := hfields
  simp only [Draft.frame, Prod.mk.injEq] at hframe hframe'
  have hin : Inside (R done depth) n.name c c' := ⟨hr, hframe.2.1 ▸ hb.2⟩
  have hmethods := h.sketchAll hk
    (e := ⟨level, n, k.renderer.hidden n.decl ++ TypeSketch.lambdaTargets ts⟩) hL hn
    (fun v hv => hP v (List.mem_append_left _ hv)) content hin
  dsimp only at hmethods ⊢
  generalize MethodSketch.sketchAll k n _ level content c = r at hmethods ⊢
  generalize MethodSketch.sketchAll (k.withBody f) n _ level' content c' = r' at hmethods ⊢
  obtain ⟨content', d⟩ := r
  obtain ⟨_, d'⟩ := r'
  obtain ⟨rfl, hd, _⟩ := hmethods
  rw [TypeSketch.insideVisits, ← List.append_assoc]
  exact h.sketchMembers _ hL hts (fun v hv => hP v (List.mem_append_right _ hv)) content' _ _ _ _ hd

theorem sketchPlain (h : Tracks w fits L C k f P R) (hk : k.Worded w)
    (hsucc : ∀ l l', L l l' → L (l + 1) (l' + 1)) {n : ClassNode} {level : Nat}
    (hL : L level level') {ts : List (Tree ClassNode)} (hC : C n.decl) (hn : w.Holds n.texts)
    (hts : ∀ l l', L l l' → ∀ t ∈ ts, (∀ v ∈ TypeSketch.visits k l t, P v) →
      Takes R (TypeSketch.visits k l t) (TypeSketch.sketch k l t)
        (TypeSketch.sketch (k.withBody f) l' t))
    (hP : ∀ v ∈ TypeSketch.insideVisits k (TypeSketch.memberLevel n level) n ts, P v)
    {done : List Visit} {b b' : Bench σ} (hb : Inside (R done depth) n.name b b') :
    R (done ++ TypeSketch.insideVisits k (TypeSketch.memberLevel n level) n ts) depth
      (TypeSketch.sketchPlain k level n ts b).2
      (TypeSketch.sketchPlain (k.withBody f) level' n ts b').2 := by
  rw [TypeSketch.sketchPlain, TypeSketch.sketchPlain]
  by_cases hfacade : TypeSketch.isFacade n.decl = true
  · rw [TypeSketch.memberLevel, if_pos hfacade] at hP ⊢
    rw [if_pos hfacade, if_pos hfacade]
    exact h.sketchInside hk hL hC hn (hts level level' hL) hP hb
  · rw [TypeSketch.memberLevel, if_neg hfacade] at hP ⊢
    rw [if_neg hfacade, if_neg hfacade]
    have hheader := ((h.strokes done depth).framed b.draft.frame b'.draft.frame).header
      ((h.opens done depth).framed _ _) hL k hC hn ⟨hb.1, rfl, rfl⟩
    obtain ⟨hr, hframe, hframe'⟩ := hheader
    simp only [Draft.frame, Prod.mk.injEq] at hframe hframe'
    have hin : Inside (R done (depth + 1)) n.name (Header.sketch k n level b).2
        (Header.sketch k n level' b').2 := ⟨hr, hframe.2.1 ▸ hb.2⟩
    have hinside := h.sketchInside hk (hsucc _ _ hL) hC hn (hts _ _ (hsucc _ _ hL)) hP hin
    exact (h.strokes _ _).closingBrace (h.closes _ _) hL n hinside

/-- A sketch of a tree comes to its visits. -/
theorem sketch (h : Tracks w fits L C k f P R) (hk : k.Worded w)
    (hsucc : ∀ l l', L l l' → L (l + 1) (l' + 1)) {t : Tree ClassNode}
    (hC : ∀ n ∈ t.toList, C n.decl) (htexts : ∀ n ∈ t.toList, w.Holds n.texts)
    (hmodules : (∀ l, L l l) ∨ ∀ n ∈ t.toList, TypeSketch.moduleOf? n.decl = none) {level : Nat}
    (hL : L level level') (hP : ∀ v ∈ TypeSketch.visits k level t, P v) :
    Takes R (TypeSketch.visits k level t) (TypeSketch.sketch k level t)
      (TypeSketch.sketch (k.withBody f) level' t) := by
  induction t generalizing level level' with
  | node n ts ih =>
    have hn : w.Holds n.texts := htexts n (by simp)
    intro done depth b b' hb
    rw [TypeSketch.sketch_node, TypeSketch.sketch_node, ← h.scope_eq hb]
    refine h.scope_free _ ?_
    have hin : Inside (R done depth) n.name _ _ :=
      ⟨h.scope_free (b.draft.scope.enterClass n.name) hb, rfl⟩
    rw [TypeSketch.visits_node] at hP ⊢
    cases hm : TypeSketch.moduleOf? n.decl with
    | some m =>
      have hlevels : ∀ l, L l l := hmodules.resolve_right fun hnone => by
        rw [hnone n (by simp)] at hm
        cases hm
      have hmodule : n.decl.module = some m := by
        rw [TypeSketch.moduleOf?] at hm
        split at hm
        · exact hm
        · cases hm
      rw [Option.isSome_some, if_pos rfl, List.append_nil]
      exact (h.strokes done depth).moduleWrite (h.strokes done _) (h.opens done depth)
        (h.closes done depth) hlevels (n.decl.annotations_holds (n.decl_holds hn))
        (n.decl.module_holds (n.decl_holds hn) hmodule) hin.1
    | none =>
      rw [hm] at hP
      rw [Option.isSome_none, if_neg Bool.false_ne_true] at hP ⊢
      refine h.sketchPlain hk hsucc hL (hC n (by simp)) hn (fun l l' hl t ht hv => ?_) hP hin
      have hbelow : ∀ m ∈ t.toList, m ∈ (Tree.node n ts).toList :=
        fun m hm => Tree.mem_toList_of_child ht hm
      exact ih t ht (fun m hm => hC m (hbelow m hm)) (fun m hm => htexts m (hbelow m hm))
        (hmodules.imp_right fun hnone m hm => hnone m (hbelow m hm)) hl hv

end Tracks

namespace Follows

variable {σ : Type} {w : Wording} {L : Nat → Nat → Prop} {C : ClassDecl → Prop} {k : Kit σ}
  {f : BodySite → Trace → StateM σ (Except BodyFailure Body × Trace)} {P : Visit → Prop}
  {R : List Visit → Bench σ → Bench σ → Prop} {level' : Nat}

/-- The actions take the relation over the visits. -/
def Takes (R : List Visit → Bench σ → Bench σ → Prop) (vs : List Visit)
    (a a' : SketchM σ Unit) : Prop :=
  ∀ done b b', R done b b' → R (done ++ vs) (a b).2 (a' b').2

theorem sketch (h : Follows w L C k f P R) (hk : k.Worded w)
    (hsucc : ∀ l l', L l l' → L (l + 1) (l' + 1)) {t : Tree ClassNode}
    (hC : ∀ n ∈ t.toList, C n.decl) (htexts : ∀ n ∈ t.toList, w.Holds n.texts)
    (hmodules : (∀ l, L l l) ∨ ∀ n ∈ t.toList, TypeSketch.moduleOf? n.decl = none) {level : Nat}
    (hL : L level level') (hP : ∀ v ∈ TypeSketch.visits k level t, P v) :
    Takes R (TypeSketch.visits k level t) (TypeSketch.sketch k level t)
      (TypeSketch.sketch (k.withBody f) level' t) :=
  fun done b b' hb => (h.tracks hk).sketch hk hsucc hC htexts hmodules hL hP done 0 b b' hb

end Follows

end ClassSketch
