import ClassSketch.Proofs.Transients
import ClassSketch.Proofs.Visits

/-! Files by their parts: the tree that is written, the draft of it, and what the file takes from
the draft. -/

namespace ClassSketch

/-- The tree as it is written: without marks of failures, and with nodes for lambdas. -/
def ClassTree.sprouted {σ : Type} (t : ClassTree) (r : Renderer σ) : ClassTree :=
  t.clearFailures.discoverLambdas r

/-- The methods that the writing of a file comes to. -/
def Kit.fileVisits {σ : Type} (k : Kit σ) (t : ClassTree) : List Visit :=
  if t.root.decl.isPackageInfo then [] else TypeSketch.visits k 0 (t.sprouted k.renderer).tree

/-- What a `package-info` class says is made of strokes. -/
theorem Strokes.writePackage {σ : Type} {w : Wording} {fits : String → Prop} {L : Nat → Nat → Prop}
    {C : ClassDecl → Prop} {R : Bench σ → Bench σ → Prop} (h : Strokes w fits L C R) (hL : L 0 0)
    {c : ClassDecl} (hc : w.Holds c.texts) {b b' : Bench σ} (hb : R b b') :
    R { b with draft := b.draft.writePackage c } { b' with draft := b'.draft.writePackage c } := by
  have hannotations : ∀ s ∈ c.annotations.map annotationText, fits s := by
    intro s hs
    obtain ⟨a, ha, rfl⟩ := List.mem_map.mp hs
    exact h.fits_of_within _ (annotationText_holds (c.annotations_holds hc a ha))
  have hpackage : fits ("package " ++ Name.dottedPackage c.package) :=
    h.fits_of_within _ (Text.within_append.mpr ⟨w.fixed (by decide),
      w.within_dottedPackage (Name.within_package (c.name_holds hc))⟩)
  have hlines := h.writeLines hL hannotations hb
  simp only [Draft.writePackage]
  split
  · exact hlines
  · exact h.writeLine hL hpackage hlines

namespace Workshop

variable {σ : Type}

theorem draftClass_apply (k : Kit σ) (root : String) (level : Nat) (t : Tree ClassNode)
    (shop : Workshop σ) : shop.draftClass k root level t =
      let b := (TypeSketch.sketch k level t ⟨shop, .ofRoot root k.options.layout⟩).2
      (b.draft, b.shop) := rfl

/-- The draft of a file, from which the text is put together. -/
def fileDraft (k : Kit σ) (t : ClassTree) (shop : Workshop σ) : Draft × Workshop σ :=
  let shop := shop.prepare (t.sprouted k.renderer).preparedClasses
  if t.root.decl.isPackageInfo then
    ((Draft.ofRoot t.root.name k.options.layout).writePackage t.root.decl, shop)
  else shop.draftClass k t.root.name 0 (t.sprouted k.renderer).tree

theorem writeFile_apply (k : Kit σ) (t : ClassTree) (shop : Workshop σ) :
    shop.writeFile k t =
      let out := shop.fileDraft k t
      let marked := (t.sprouted k.renderer).markFailed out.1.failed
      (⟨t.root.name, (out.1.finish k.options t.root.decl).1,
          (out.1.finish k.options t.root.decl).2.tables, marked.hasFailure⟩,
        marked.detach, out.2.release (marked.detach.nodes.map (·.name))) := by
  rw [writeFile, fileDraft, ClassTree.sprouted]

theorem text_writeFile (k : Kit σ) (t : ClassTree) (shop : Workshop σ) :
    (shop.writeFile k t).1.text = ((shop.fileDraft k t).1.finish k.options t.root.decl).1 := by
  rw [writeFile_apply]

theorem tables_writeFile (k : Kit σ) (t : ClassTree) (shop : Workshop σ) :
    (shop.writeFile k t).1.tables =
      ((shop.fileDraft k t).1.finish k.options t.root.decl).2.tables := by
  rw [writeFile_apply]

theorem failed_sprouted (t : ClassTree) (r : Renderer σ) :
    ∀ n ∈ (t.sprouted r).nodes, n.failed = false := by
  obtain ⟨added, hperm, hadded⟩ := t.clearFailures.sprouts_discoverLambdas r
  intro n hn
  rcases List.mem_append.mp (hperm.mem_iff.mp hn) with hn | hn
  · obtain ⟨_, _, _, _, _, rfl⟩ := hadded n hn
    rfl
  · rw [ClassTree.nodes, ClassTree.clearFailures, Tree.toList_map] at hn
    obtain ⟨_, _, rfl⟩ := List.mem_map.mp hn
    rfl

theorem failed_writeFile (k : Kit σ) (t : ClassTree) (shop : Workshop σ) :
    (shop.writeFile k t).1.failed = true ↔
      ∃ n ∈ (t.sprouted k.renderer).nodes, n.id ∈ (shop.fileDraft k t).1.failed := by
  have hclear := failed_sprouted t k.renderer
  have hfailed : (shop.writeFile k t).1.failed =
      ((t.sprouted k.renderer).markFailed (shop.fileDraft k t).1.failed).hasFailure := by
    rw [writeFile_apply]
  rw [hfailed, ClassTree.hasFailure, ClassTree.nodes, ClassTree.markFailed, Tree.toList_map,
    List.any_map, List.any_eq_true]
  refine exists_congr fun n => and_congr_right fun hn => ?_
  by_cases hid : n.id ∈ (shop.fileDraft k t).1.failed
  · simp [hid]
  · simp [hid, hclear n hn]

end Workshop

end ClassSketch
