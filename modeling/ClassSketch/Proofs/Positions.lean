import ClassSketch.Proofs.Reachability

/-! What a nested class carries and where it lies. The settled claim describes it. Its place is that
of any claim, as the walks go: it lies in the first class they look at in which it lies. -/

namespace ClassSketch

theorem Surveyed.find?_parent {g : Ground} {t : ClaimTable} {roots looked : List String}
    {links : List Link} (h : Surveyed g t roots looked [] links) {link : Link} (hl : link ∈ links)
    (hn : g.Nests t link.parent link.child.name) :
    (looked.find? fun p => g.Nests t p link.child.name) = some link.parent := by
  obtain ⟨pre, post, hsplit, hfirst⟩ := h.first link hl
  rw [List.append_nil] at hsplit
  rw [List.find?_eq_some_iff_append]
  exact ⟨by simpa using hn, pre, post, hsplit, fun q hq => by simpa using hfirst q hq⟩

/-- For every library, options and renaming, a class below a root carries what the settled claim
about it says, with the kind corrected for classes that are not anonymous after all. It lies in the
first class that is looked at in which some claim puts it and which lists it. So it lies where the
settled claim puts it if no claim puts it anywhere else. -/
theorem described_by_settled_under_first (l : Library) (o : Options) (policy : Renaming) :
    let g := Ground.ofLibrary l o
    let t := (Census.take g policy).table
    ∀ tree ∈ (Forest.build l o policy).1.trees, ∀ r ∈ tree.rows, ∀ q, r.parent = some q →
      ∃ host ∈ g.classes, ∃ d ∈ g.classes, ∃ s, host.name = q.name ∧ t.claim? d.name = some s ∧
        r.value.unnumbered = .ofClaim d s (g.kindUnder host d s) (t.enclosersOf d.name) ∧
        q.name ∈ t.enclosersOf d.name ∧
        ((g.visits t).find? fun p => g.Nests t p d.name) = some q.name ∧
        ((∀ e ∈ t.enclosersOf d.name, e = s.enclosing) → q.name = s.enclosing) := by
  intro g t tree ht r hr q hq
  by_cases ho : o.nest = true
  · have hs : (g.nest t).Sound g t := Walk.sound_nest g t
    have hsurvey : Surveyed g t (g.unclaimed t) (g.visits t) [] (g.nest t).links :=
      Ground.surveyed_nest (Census.isClaimed_of_mem_nestedIn g policy)
    have hf : (Forest.build l o policy).1 = Forest.ofLinks g.classes (g.nest t).links := by
      simp [Forest.build, ho, g, t]
    obtain ⟨host, hhost, d, hd, s, hname, hclaim, hlink, hv⟩ := hs.row_link (hf ▸ ht) hr hq
    have hn : g.Nests t q.name d.name := hname ▸ hs.nests _ hlink
    have hfirst := hsurvey.find?_parent hlink (hs.nests _ hlink)
    have henc : q.name ∈ t.enclosersOf d.name := by
      rw [ClaimTable.mem_enclosersOf, ← ClaimTable.mem_nestedIn]
      exact hn.2.1
    exact ⟨host, hhost, d, hd, s, hname, hclaim, hv, henc, hname ▸ hfirst, fun h => h _ henc⟩
  · have hf : (Forest.build l o policy).1 = Forest.ofLinks g.classes ({} : Walk).links := by
      simp [Forest.build, ho, g]
    obtain ⟨_, _, _, _, _, _, _, hlink, _⟩ := (Walk.sound_empty g t).row_link (hf ▸ ht) hr hq
    cases hlink

theorem twoHosts_local_row : ∃ tree ∈ (Forest.build twoHosts {} .keep).1.trees, ∃ r ∈ tree.rows,
    ∃ q, r.parent = some q ∧ r.value.name = "a/L" ∧ q.name = "a/A" := by
  apply Forest.exists_row_of_any
  simp only [Forest.build, Forest.ofLinks, Ground.nest, Ground.unclaimed, ClassTree.rows,
    sortByKey_eq_insertionSort]
  decide +kernel

theorem twoHosts_settled : (Census.take (.ofLibrary twoHosts {}) .keep).table.claim? "a/L" =
    some { inner := "a/L", enclosing := "a/B", simpleName := some "L", kind := .localClass,
           access := .finalFlag, source := "a/B" } := by
  decide

/-- The local class of two hosts lies in the first one and carries the flags that the second one
claims. -/
theorem twoHosts_under_first : ∃ tree ∈ (Forest.build twoHosts {} .keep).1.trees, ∃ r ∈ tree.rows,
    ∃ q, r.parent = some q ∧ r.value.name = "a/L" ∧ q.name = "a/A" ∧ r.value.kind = .localClass ∧
      r.value.access = .finalFlag := by
  obtain ⟨tree, ht, r, hr, q, hq, hname, hqa⟩ := twoHosts_local_row
  obtain ⟨host, _, d, _, s, _, hclaim, hv, _⟩ :=
    described_by_settled_under_first twoHosts {} .keep tree ht r hr q hq
  have hd : d.name = "a/L" := (congrArg ClassNode.name hv).symm.trans hname
  rw [hd, twoHosts_settled, Option.some.injEq] at hclaim
  subst hclaim
  exact ⟨tree, ht, r, hr, q, hq, hname, hqa, congrArg ClassNode.kind hv,
    congrArg ClassNode.access hv⟩

/-- A class may lie elsewhere than the claim that describes it says. -/
theorem place_and_description_differ : ¬ ∀ (l : Library) (o : Options) (policy : Renaming),
    ∀ tree ∈ (Forest.build l o policy).1.trees, ∀ r ∈ tree.rows, ∀ q, r.parent = some q →
      ∃ s, (Census.take (.ofLibrary l o) policy).table.claim? r.value.name = some s ∧
        q.name = s.enclosing := by
  intro hall
  obtain ⟨tree, ht, r, hr, q, hq, hname, hqa⟩ := twoHosts_local_row
  obtain ⟨s, hs, henc⟩ := hall twoHosts {} .keep tree ht r hr q hq
  rw [hname, twoHosts_settled, Option.some.injEq] at hs
  rw [← hs, hqa] at henc
  revert henc
  decide

end ClassSketch
