import ClassSketch.Proofs.GuardedRuns
import ClassSketch.Proofs.MappedLines
import ClassSketch.Proofs.Splitting

/-! Whole files by guarded runs. Classes are found by their numbers, and so are the classes inside
them. Whatever was loaded and written before, the files that guarded runs write are the files, if the
lines of a file and what any of its methods loses stay below the limit. -/

namespace ClassSketch

namespace PreparedBodies

section LaidOut

variable (site : BodySite) (lines : List String) (entries : List LineEntry)

end LaidOut

variable (p : PreparedBodies) (o : Options) (σ : Type) (v : Visit)

/-- The lines that are counted while a body is laid out. -/
def countedLines : Nat := (Text.lines (p.source v)).length

/-- What a method takes of the numbers of lines beyond the lines that it leaves in the file. -/
def lost : Nat :=
  if v.hasBody (p.kit o σ) then
    MethodSketch.lost (p.kit o σ) v (some (p.bodyText o v)) (p.countedLines v)
  else 0

end PreparedBodies

namespace Guarded

variable {σ : Type}

def sketchMembers (o : Options) (hidden : List String) (member : ClassNode → Guarded σ Unit)
    (content : Bool) : List ClassNode → Guarded σ Unit
  | [] => return
  | n :: ns => do
    if TypeSketch.isShownMember o hidden n then
      work (SketchM.editWhen content Draft.endLine)
      member n
      sketchMembers o hidden member true ns
    else sketchMembers o hidden member content ns

def sketchInside (k : Kit σ) (t : ClassTree) (member : ClassNode → Guarded σ Unit) (level : Nat)
    (n : ClassNode) (children : List ClassNode) : Guarded σ Unit := do
  let hidden := k.renderer.hidden n.decl
  let targets := TypeSketch.lambdaTargets (children.map .leaf)
  let content ← work (FieldSketch.sketchAll k hidden n.decl level)
  let content ← sketchFrom k t n level content
    (n.decl.methods.filter fun m => !MethodSketch.isSkipped k.options (hidden ++ targets) m)
  sketchMembers k.options hidden member content children

/-- The class with a number, in at most so many generations. -/
def sketch (k : Kit σ) (t : ClassTree) : Nat → Nat → Nat → Guarded σ Unit
  | 0, _, _ => failure
  | generations + 1, level, id => do
    let (n, children) ← t.family? id
    inScope (.ofClass n.name) do
      match TypeSketch.moduleOf? n.decl with
      | some m => work (SketchM.edit (ModuleSketch.write n.decl.annotations m))
      | none =>
        let inside level :=
          sketchInside k t (fun c => sketch k t generations level c.id) level n children
        if TypeSketch.isFacade n.decl then inside level
        else
          work (Header.sketch k n level)
          inside (level + 1)
          work (SketchM.edit (TypeSketch.closingBrace n level))

end Guarded

namespace Agrees

variable {σ : Type} {slack : Nat} {k : Kit σ} {b : Bench σ}

theorem sketchMembers (hidden : List String) {level : Nat} {member : ClassNode → Guarded σ Unit}
    {ts : List (Tree ClassNode)}
    (h : ∀ u ∈ ts, TypeSketch.isShownMember k.options hidden u.value = true →
      ∀ b : Bench σ, b.draft.buffer.layout = k.options.layout →
        Agrees slack (TypeSketch.sketch k level u) (member u.value) b)
    (content : Bool) (hl : b.draft.buffer.layout = k.options.layout) :
    Agrees slack (TypeSketch.sketchMembers k hidden level content ts)
      (Guarded.sketchMembers k.options hidden member content (ts.map Tree.value)) b := by
  induction ts generalizing content b with
  | nil =>
    rw [TypeSketch.sketchMembers]
    exact .pure ()
  | cons u ts ih =>
    have htail : ∀ s ∈ ts, _ := fun s hs => h s (List.mem_cons_of_mem _ hs)
    rw [TypeSketch.sketchMembers, List.map_cons, Guarded.sketchMembers]
    split
    · next hshown =>
      have hblank : Agrees slack _ _ b := blankLine content
      have hmember := h u List.mem_cons_self hshown _ (hblank.layout_eq hl)
      exact hblank.bind (hmember.bind (ih htail true (hmember.layout_eq (hblank.layout_eq hl))))
    · exact ih htail content hl

theorem lambdaTargets_leaves (ts : List (Tree ClassNode)) :
    TypeSketch.lambdaTargets ((ts.map Tree.value).map .leaf) = TypeSketch.lambdaTargets ts := by
  rw [TypeSketch.lambdaTargets, TypeSketch.lambdaTargets, List.map_map, List.filterMap_map]
  rfl

theorem sketchInside {t : ClassTree} {member : ClassNode → Guarded σ Unit} {level : Nat}
    {n : ClassNode} {ts : List (Tree ClassNode)}
    (hv : ∀ v ∈ TypeSketch.insideVisits k level n ts, k.Spares slack v)
    (hn : t.family? n.id = some (n, ts.map Tree.value))
    (h : ∀ u ∈ ts, (∀ v ∈ TypeSketch.visits k level u, k.Spares slack v) →
      ∀ b : Bench σ, b.draft.buffer.layout = k.options.layout →
        Agrees slack (TypeSketch.sketch k level u) (member u.value) b)
    (hl : b.draft.buffer.layout = k.options.layout) :
    Agrees slack (TypeSketch.sketchInside k level n ts)
      (Guarded.sketchInside k t member level n (ts.map Tree.value)) b := by
  obtain ⟨hown, hnested⟩ := List.forall_mem_append.mp hv
  have hc : Wording.any.Holds n.decl.texts := fun _ _ _ _ => trivial
  have hfields : Agrees slack _ _ b := of_keeps ((steps_since b).sketchFields (Eq.refl level)
    (k.renderer.hidden n.decl) (fun g _ => k.worded_any.values n.decl g) hc)
  have hmembers : ∀ u ∈ ts, TypeSketch.isShownMember k.options (k.renderer.hidden n.decl) u.value =
      true → ∀ b : Bench σ, b.draft.buffer.layout = k.options.layout →
        Agrees slack (TypeSketch.sketch k level u) (member u.value) b :=
    fun u hu hshown => h u hu fun v hv =>
      hnested v (TypeSketch.mem_visits_of_isShownMember hu hshown hv)
  rw [TypeSketch.sketchInside, Guarded.sketchInside, lambdaTargets_leaves]
  replace hl := hfields.layout_eq hl
  refine hfields.bind ?_
  generalize FieldSketch.sketchAll k _ n.decl level b = r at hl ⊢
  have hmethods : Agrees slack _ _ r.2 := sketchFrom level r.1 hl hn fun m hm =>
    hown ⟨level, n, m⟩ (List.mem_map_of_mem hm)
  exact hmethods.bind (sketchMembers _ hmembers _ (hmethods.layout_eq hl))

theorem sketch {t : ClassTree} (hi : t.Indexed) {s : Tree ClassNode} (hs : t.Holds s)
    {generations : Nat} (hg : s.size ≤ generations) (level : Nat)
    (hv : ∀ v ∈ TypeSketch.visits k level s, k.Spares slack v)
    (hl : b.draft.buffer.layout = k.options.layout) :
    Agrees slack (TypeSketch.sketch k level s) (Guarded.sketch k t generations level s.value.id)
      b := by
  induction s generalizing generations level b with
  | node n ts ih =>
    cases generations with
    | zero =>
      rw [Tree.size, Tree.toList_node, List.length_cons] at hg
      omega
    | succ generations =>
      have hfamily : t.family? n.id = some (n, ts.map Tree.value) := hs.family?_eq hi
      have hinside : ∀ level, (∀ v ∈ TypeSketch.insideVisits k level n ts, k.Spares slack v) →
          ∀ b : Bench σ, b.draft.buffer.layout = k.options.layout →
            Agrees slack (TypeSketch.sketchInside k level n ts)
              (Guarded.sketchInside k t (fun c => Guarded.sketch k t generations level c.id) level n
                (ts.map Tree.value)) b := by
        intro level hv b hl
        refine sketchInside hv hfamily (fun u hu hv b hl => ?_) hl
        have hsize := Tree.size_lt_of_mem n hu
        exact ih u hu (hs.child hu) (by omega) level hv hl
      rw [TypeSketch.visits_node] at hv
      rw [TypeSketch.sketch_eq_inScope, Guarded.sketch]
      refine Agrees.lookup hfamily (Agrees.inScope ?_)
      replace hl : (Scoped.withScope b
        (b.draft.scope.enter (.ofClass n.name)).1).draft.buffer.layout = k.options.layout := hl
      generalize Scoped.withScope b _ = b at hl ⊢
      have hn : Wording.any.Holds n.texts := fun _ _ _ _ => trivial
      cases hmodule : TypeSketch.moduleOf? n.decl with
      | some m =>
        refine of_keeps (Steps.edit _ _ fun _ _ hb => ?_)
        exact (steps_since b).moduleWrite (fun _ => rfl) (fun _ _ _ _ => trivial)
          (fun _ _ _ _ => trivial) hb
      | none =>
        rw [hmodule, Option.isSome_none, if_neg Bool.false_ne_true, TypeSketch.memberLevel] at hv
        dsimp only
        rw [TypeSketch.sketchPlain]
        split
        · next hfacade =>
          rw [if_pos hfacade] at hv
          exact hinside level hv b hl
        · next hfacade =>
          rw [if_neg hfacade] at hv
          have hheader : Agrees slack _ _ b :=
            of_keeps ((steps_since b).header (Eq.refl level) k trivial hn)
          refine hheader.bind (Agrees.bind (hinside _ hv _ (hheader.layout_eq hl)) ?_)
          generalize (TypeSketch.sketchInside k _ n ts _).2 = c
          exact of_keeps (Steps.edit _ _ fun _ _ hb => (steps_since c).closingBrace rfl n hb)

end Agrees

section Drafts

variable {σ : Type} {k : Kit σ}

/-- The bench on which a file is drafted. -/
def Workshop.benchFor (k : Kit σ) (root : String) (classes : List ClassDecl) (shop : Workshop σ) :
    Bench σ :=
  ⟨shop.prepare classes, .ofRoot root k.options.layout⟩

end Drafts

namespace Workshop

variable {σ : Type}

variable {k : Kit σ} {t : ClassTree} {slack : Nat}

end Workshop

namespace Session

variable {σ : Type}

/-- The numbers of each tree stand in the order of its nodes. -/
structure Orderly (s : Session σ) : Prop where
  distinct : s.forest.Distinct
  numbered : ∀ t ∈ s.forest.trees, t.Numbered

theorem orderly_load (s : Session σ) : s.load.Orderly := by
  refine ⟨Forest.distinct_build _ _ _, fun t ht => ?_⟩
  obtain ⟨u, rfl⟩ := Forest.build_numbered _ _ _ t ht
  exact ClassTree.numbered_ofTree u

theorem Orderly.write {s : Session σ} (h : s.Orderly) {n : String} (hn : n ∈ s.forest.names) :
    ∃ file s', s.write n = .ok (file, s') ∧ s'.Orderly ∧ s'.kit = s.kit := by
  obtain ⟨t, ht, hnt⟩ := Forest.mem_names.mp hn
  have hw := write_of_mem_names h.distinct ht hnt
  obtain ⟨file, s', hw', hdistinct, _⟩ := write_of_mem h.distinct hn
  obtain ⟨_, rfl⟩ := Prod.mk.inj (Except.ok.inj (hw.symm.trans hw'))
  refine ⟨_, _, hw, ⟨hdistinct, fun u hu => ?_⟩, rfl⟩
  obtain ⟨v, hv, rfl⟩ := List.mem_map.mp hu
  split
  · obtain ⟨ids, htree, _⟩ := Workshop.tree_writeFile s.kit (h.distinct.bare t ht) s.shop
    exact (h.numbered t ht).map (ClassNode.marked_id ids) htree
  · exact h.numbered v hv

theorem Orderly.afterWrites (ns : List String) {s : Session σ} (h : s.Orderly) :
    (s.afterWrites ns).Orderly ∧ (s.afterWrites ns).kit = s.kit := by
  induction ns generalizing s with
  | nil => exact ⟨h, rfl⟩
  | cons n ns ih =>
    by_cases hn : n ∈ s.forest.names
    · obtain ⟨file, s', hw, hs', hkit⟩ := h.write hn
      obtain ⟨hafter, heq⟩ := ih hs'
      simp only [Session.afterWrites, hw]
      exact ⟨hafter, heq.trans hkit⟩
    · simp only [Session.afterWrites, write_of_not_mem h.distinct hn]
      exact ih h

end Session

end ClassSketch
