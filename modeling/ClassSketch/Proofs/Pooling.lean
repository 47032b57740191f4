import ClassSketch.Proofs.Sketching

/-! Looking up signatures and ancestors fills the pool and the list of known ancestries, and does
nothing else. What survives one signature of the library survives a whole search. -/

namespace ClassSketch

theorem after_bind {ς α β : Type} {P : ς → Prop} {a : StateM ς α} {f : α → StateM ς β} {g : ς}
    (ha : P (a g).2) (hf : ∀ x {g}, P g → P (f x g).2) : P ((a >>= f) g).2 :=
  hf _ ha

theorem after_get {ς β : Type} {P : ς → Prop} {f : ς → StateM ς β} {g : ς} (h : P (f g g).2) :
    P ((get >>= f) g).2 :=
  h

namespace Genealogy

/-- A property that pooling a signature of the library keeps, and remembering an ancestry. -/
structure Stable (P : Genealogy → Prop) : Prop where
  signature : ∀ {g c}, c ∈ g.library.classes → P g → P (signature? c g).2
  known : ∀ {g} e, P g → P { g with known := e :: g.known }

namespace Stable

variable {P : Genealogy → Prop}

theorem argumentsFor (h : Stable P) (name : String) (t : JType) {g : Genealogy} (hg : P g) :
    P (argumentsFor name t g).2 := by
  refine after_get ?_
  cases hc : g.library.find? name with
  | none => exact hg
  | some c =>
    refine after_bind (h.signature (List.mem_of_find?_eq_some hc) hg) fun s g hg => ?_
    cases s <;> exact hg

theorem collect (h : Stable P)
    {find : String → StateM Genealogy (Except AncestryError Ancestry)}
    (hfind : ∀ name {g}, P g → P (find name g).2) (ts : List JType)
    (found : Table String Substitution) {g : Genealogy} (hg : P g) :
    P (collect find ts found g).2 := by
  induction ts generalizing found g with
  | nil => exact hg
  | cons t ts ih =>
    rw [Genealogy.collect]
    cases t.className? with
    | none => exact ih found hg
    | some name =>
      refine after_bind (h.argumentsFor name t hg) fun arguments g hg => after_get ?_
      cases g.library.find? name with
      | none => exact ih _ hg
      | some c =>
        refine after_bind (hfind name hg) fun r g hg => ?_
        cases r with
        | error e => exact hg
        | ok inherited => exact ih _ hg

theorem search (h : Stable P) (n : Nat) (below : List String) (name : String) {g : Genealogy}
    (hg : P g) : P (search n below name g).2 := by
  induction n generalizing below name g with
  | zero => exact hg
  | succ n ih =>
    refine after_get ?_
    cases g.known.lookup name with
    | some a => exact hg
    | none =>
      dsimp only
      split
      · exact hg
      · refine after_get ?_
        cases hc : g.library.find? name with
        | none => exact hg
        | some c =>
          refine after_bind (h.signature (List.mem_of_find?_eq_some hc) hg) fun s g hg => ?_
          refine after_bind (h.collect (fun above _ hg => ih _ above hg) _ _ hg) fun r g hg => ?_
          cases r with
          | error e => exact hg
          | ok ancestors => exact h.known _ hg

theorem ancestry (h : Stable P) (name : String) {g : Genealogy} (hg : P g) :
    P (ancestry name g).2 :=
  h.search _ _ _ hg

end Stable

/-- The texts of the library and the pooled signatures are over the alphabet. -/
structure Worded (w : Wording) (g : Genealogy) : Prop where
  classes : ∀ c ∈ g.library.classes, w.Holds c.texts
  pool : ∀ name s, (name, some s) ∈ g.library.pool → s.Worded w

theorem worded_any (g : Genealogy) : g.Worded Wording.any :=
  ⟨fun _ _ _ _ _ _ => trivial, fun _ s _ => s.worded_any⟩

namespace Worded

variable {w : Wording} {g : Genealogy}

theorem signature (hg : g.Worded w) {c : ClassDecl} (hc : w.Holds c.texts) :
    (∀ s, (signature? c g).1 = some s → s.Worded w) ∧ (signature? c g).2.Worded w := by
  have hread : ∀ s, c.readableSignature? = some s → s.Worded w :=
    fun s hs => c.readableSignature_worded hc hs
  rw [signature?, Library.signature?]
  cases g.library.mode with
  | plain => exact ⟨hread, hg⟩
  | unreadable => exact ⟨hread, hg⟩
  | pooled =>
    dsimp only
    cases hl : g.library.pool.lookup c.name with
    | some s =>
      obtain ⟨before, after, hpool, _⟩ := List.lookup_eq_some_iff.mp hl
      have hmem : (c.name, s) ∈ g.library.pool := by simp [hpool]
      refine ⟨fun x hx => ?_, hg⟩
      dsimp only at hx
      exact hg.pool c.name x (hx ▸ hmem)
    | none =>
      refine ⟨hread, hg.classes, fun name s hs => ?_⟩
      rcases List.mem_cons.mp hs with he | hs
      · exact hread s (Prod.mk.inj he).2.symm
      · exact hg.pool name s hs

theorem stable : Stable (Worded w) where
  signature hc hg := (hg.signature (hg.classes _ hc)).2
  known _ hg := ⟨hg.classes, hg.pool⟩

end Worded

end Genealogy

namespace Override

variable {σ : Type} (c : ClassDecl) (m : MethodDecl) (ps : List JType)

theorem check_apply (b : Bench σ) : Override.check c m ps b =
    if !m.isInherited then (false, b)
    else
      let r := Genealogy.ancestry c.name b.shop.genealogy
      (match r.1 with
        | .error _ => false
        | .ok a => inAncestry r.2.library a m ps,
      { b with shop := { b.shop with genealogy := r.2 } }) := by
  rw [Override.check]
  split
  · rfl
  · simp only [bind, StateT.bind, SketchM.inGenealogy]
    rcases Genealogy.ancestry c.name b.shop.genealogy with ⟨r, g⟩
    cases r <;> rfl

theorem draft_check (b : Bench σ) : (Override.check c m ps b).2.draft = b.draft := by
  rw [check_apply]
  split <;> rfl

theorem genealogy_check {P : Genealogy → Prop} (hP : Genealogy.Stable P) {b : Bench σ}
    (hb : P b.shop.genealogy) : P (Override.check c m ps b).2.shop.genealogy := by
  rw [check_apply]
  split
  · exact hb
  · exact hP.ancestry c.name hb

end Override

end ClassSketch
