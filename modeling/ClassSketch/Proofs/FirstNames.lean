import ClassSketch.Proofs.Corrections

/-! Names of nested classes when the policy keeps them all. The first entry that gives a class a name
decides, also if it makes no claim. A later entry with another name makes a claim that looks
renamed. -/

namespace ClassSketch

namespace Ground

/-- A claim as it is made when the first entry about its class gives the name. -/
def byFirstName (g : Ground) (c : Claim) : Claim :=
  match c.simpleName with
  | none => c
  | some simple => c.called ((firstName? g.entries c.inner).getD simple)

end Ground

namespace Census

/-- A census that keeps names, after some entries: the names are the first ones, and the table holds
the claims `cs`. -/
structure Keeping (c : Census) (es : List NestingEntry) (cs : List Claim) : Prop where
  policy : c.policy = .keep
  names : ∀ inner, c.names.lookup inner = firstName? es inner
  table : c.table = ClaimTable.ofClaims cs

end Census

namespace Ground

variable {g : Ground} {c : Claim}

/-- Entries that name a class give it the same name. -/
def NamesAgree (g : Ground) : Prop :=
  ∀ e ∈ g.entries, ∀ e' ∈ g.entries, e.inner = e'.inner → ∀ s ∈ e.simpleName,
    ∀ s' ∈ e'.simpleName, s = s'

theorem exists_firstName_of_mem_claims (hc : c ∈ g.claims) {simple : String}
    (hs : c.simpleName = some simple) :
    ∃ e ∈ g.entries, e.inner = c.inner ∧ e.simpleName = some simple ∧
      ∃ name, firstName? g.entries c.inner = some name := by
  obtain ⟨e, he, hinner, hdescription⟩ := exists_entry_of_mem_claims hc
  have hsimple : c.simpleName = e.simpleName := congrArg (·.1) hdescription
  refine ⟨e, he, hinner.symm, hsimple.symm.trans hs, ?_⟩
  rw [← Option.isSome_iff_exists, firstName?, List.isSome_findSome?, List.any_eq_true]
  refine ⟨e, he, ?_⟩
  rw [if_pos hinner.symm, ← hsimple, hs]
  rfl

theorem renamedFrom_of_mem_claims (hc : c ∈ g.claims) : c.renamedFrom = none := by
  obtain ⟨_, _, _, hdescription⟩ := exists_entry_of_mem_claims hc
  exact congrArg (·.2.1) hdescription

theorem byFirstName_of_named {simple name : String} (hs : c.simpleName = some simple)
    (hname : firstName? g.entries c.inner = some name) : g.byFirstName c = c.called name := by
  rw [byFirstName, hs, hname]
  rfl

theorem byFirstName_eq_named {nameOf : String → String} (hc : c ∈ g.claims)
    (hnames : ∀ name, firstName? g.entries c.inner = some name → nameOf c.inner = name) :
    g.byFirstName c = c.named nameOf := by
  cases hs : c.simpleName with
  | none => rw [byFirstName, Claim.named, hs]
  | some simple =>
    obtain ⟨_, _, _, _, name, hname⟩ := exists_firstName_of_mem_claims hc hs
    rw [byFirstName_of_named hs hname, Claim.named_of_some _ _ hs, hnames name hname]

/-- A claim is taken in as it is made if its entry gives no name or the first one. -/
theorem byFirstName_eq_self_iff (hc : c ∈ g.claims) :
    g.byFirstName c = c ↔ c.simpleName = none ∨ c.simpleName = firstName? g.entries c.inner := by
  cases hs : c.simpleName with
  | none =>
    rw [byFirstName, hs]
    simp
  | some simple =>
    obtain ⟨_, _, _, _, name, hname⟩ := exists_firstName_of_mem_claims hc hs
    rw [byFirstName_of_named hs hname, hname]
    constructor
    · intro hsame
      rw [← hs]
      exact .inr (congrArg Claim.simpleName hsame).symm
    · rintro (hnone | hfirst)
      · cases hnone
      · rw [Claim.called, ← hfirst, hs, if_pos rfl, ← hs, ← renamedFrom_of_mem_claims hc]

theorem NamesAgree.byFirstName (h : g.NamesAgree) (hc : c ∈ g.claims) : g.byFirstName c = c := by
  rw [byFirstName_eq_self_iff hc]
  cases hs : c.simpleName with
  | none => exact .inl rfl
  | some simple =>
    obtain ⟨e, he, hinner, hsimple, name, hname⟩ := exists_firstName_of_mem_claims hc hs
    obtain ⟨first, hfirst, hinner', hsimple'⟩ := exists_entry_of_firstName? hname
    have hsame := h e he first hfirst (hinner.trans hinner'.symm) simple hsimple name hsimple'
    exact .inr (hname ▸ congrArg some hsame)

end Ground

namespace Census

theorem NamesChosen.keep {first : String → Option String} {names : List (String × String)}
    {r : Renaming} (h : NamesChosen .keep first names r) :
    r = .keep ∧ ∀ inner, names.lookup inner = first inner := by
  induction h with
  | start => exact ⟨rfl, fun _ => rfl⟩
  | choose inner simple _ _ ih =>
    obtain ⟨rfl, hnames⟩ := ih
    refine ⟨rfl, fun i => ?_⟩
    rw [lookup_cons_update, funext hnames]
    rfl

theorem keeping_take (g : Ground) :
    (take g .keep).Keeping g.entries (g.claims.map g.byFirstName) := by
  obtain ⟨hpolicy, hnames⟩ := (namesChosen_take g .keep).keep
  refine ⟨hpolicy, hnames, ?_⟩
  rw [table_take]
  congr 1
  refine List.map_congr_left fun c hc => (Ground.byFirstName_eq_named hc fun name hname => ?_).symm
  rw [nameOf, hnames, hname, Option.getD_some]

end Census

/-- A renamed node has its names from a claim that was settled on. -/
theorem Forest.exists_claim_of_renamed {l : Library} {o : Options} {policy : Renaming}
    {tree : ClassTree} (ht : tree ∈ (build l o policy).1.trees) {n : ClassNode}
    (hn : n ∈ tree.nodes) {old : String} (hold : n.renamedFrom = some old) :
    ∃ s, (Census.take (.ofLibrary l o) policy).table.claim? n.name = some s ∧
      n.simpleName = s.simpleName ∧ n.renamedFrom = s.renamedFrom := by
  obtain ⟨w, hs, hf⟩ := build_eq_ofLinks l o policy
  rw [hf] at ht
  obtain ⟨b, rfl⟩ := ofLinks_numbered _ _ tree ht
  obtain ⟨r, hr, rfl⟩ := Tree.exists_row none 0 hn
  rw [← ClassTree.rows_ofTree] at hr
  rcases (row_ofLinks hs.linked_unplaced ht hr).2 with ⟨_, c, _, _, hroot⟩ | ⟨q, _, _, hq, _⟩
  · have hnone : r.value.renamedFrom = none := congrArg ClassNode.renamedFrom hroot
    cases hold.symm.trans hnone
  · obtain ⟨s, hclaim, _, hnode⟩ := hs.row_under ht hr hq
    exact ⟨s, hclaim, congrArg ClassNode.simpleName hnode, congrArg ClassNode.renamedFrom hnode⟩

/-- A node that looks renamed has its old name from one entry, and the new one from the first. -/
theorem Forest.firstName_of_renamed {l : Library} {o : Options} {tree : ClassTree}
    (ht : tree ∈ (build l o .keep).1.trees) {n : ClassNode} (hn : n ∈ tree.nodes) {old : String}
    (hold : n.renamedFrom = some old) :
    let g := Ground.ofLibrary l o
    n.simpleName = firstName? g.entries n.name ∧ n.simpleName ≠ some old ∧
      ∃ c ∈ g.claims, c.inner = n.name ∧ c.simpleName = some old := by
  intro g
  obtain ⟨s, hclaim, hsimple, hrenamed⟩ := exists_claim_of_renamed ht hn hold
  rw [(Census.keeping_take g).table] at hclaim
  obtain ⟨hmem, hinner⟩ := ClaimTable.claim?_mem hclaim
  obtain ⟨c, hc, rfl⟩ := List.mem_map.mp hmem
  rw [hold] at hrenamed
  cases hs : c.simpleName with
  | none =>
    have hself := (Ground.byFirstName_eq_self_iff hc).mpr (.inl hs)
    rw [hself, Ground.renamedFrom_of_mem_claims hc] at hrenamed
    cases hrenamed
  | some simple =>
    obtain ⟨_, _, _, _, name, hname⟩ := Ground.exists_firstName_of_mem_claims hc hs
    rw [Ground.byFirstName_of_named hs hname] at hsimple hrenamed hinner
    have hinner : c.inner = n.name := hinner
    simp only [Claim.called, hs] at hsimple hrenamed
    split at hrenamed
    · cases hrenamed
    · next hne =>
      obtain rfl := Option.some.inj hrenamed
      rw [hsimple, ← hinner, hname]
      exact ⟨rfl, hne, c, hc, rfl, hs⟩

/-- Under the policy that keeps names, every claim about a named class is taken in with the name that
the first entry gives, and looks renamed if its own entry gives another one. A node that looks renamed
has such a claim. Nothing looks renamed if all entries that name a class agree on its name. -/
theorem names_kept_from_first_entry (l : Library) (o : Options) :
    let g := Ground.ofLibrary l o
    (Census.take g .keep).table = .ofClaims (g.claims.map g.byFirstName) ∧
      (∀ c ∈ g.claims, g.byFirstName c = c ↔
        c.simpleName = none ∨ c.simpleName = firstName? g.entries c.inner) ∧
      (∀ tree ∈ (Forest.build l o .keep).1.trees, ∀ n ∈ tree.nodes, ∀ old,
        n.renamedFrom = some old → n.simpleName = firstName? g.entries n.name ∧
          n.simpleName ≠ some old ∧ ∃ c ∈ g.claims, c.inner = n.name ∧ c.simpleName = some old) ∧
      (g.NamesAgree → (Census.take g .keep).table = .ofClaims g.claims ∧
        ∀ tree ∈ (Forest.build l o .keep).1.trees, ∀ n ∈ tree.nodes, n.renamedFrom = none) := by
  intro g
  have htable := (Census.keeping_take g).table
  refine ⟨htable, fun c hc => Ground.byFirstName_eq_self_iff hc,
    fun tree ht n hn old hold => Forest.firstName_of_renamed ht hn hold, fun hagree => ⟨?_, ?_⟩⟩
  · rw [htable, List.map_congr_left fun c hc => hagree.byFirstName hc, List.map_id']
  · intro tree ht n hn
    cases hold : n.renamedFrom with
    | none => rfl
    | some old =>
      obtain ⟨hfirst, hne, c, hc, hinner, hs⟩ := Forest.firstName_of_renamed ht hn hold
      rcases (Ground.byFirstName_eq_self_iff hc).mp (hagree.byFirstName hc) with hnone | hsame
      · cases hs.symm.trans hnone
      · rw [hfirst, ← hinner, ← hsame] at hne
        exact absurd hs hne

/-- Two classes speak of a member. The first one misnames it and makes no claim. -/
def twiceNamed : Library :=
  .ofList [
    { name := "a/A", access := .publicFlag
      nesting := some
        [{ inner := "a/O$I", outer := some "a/O", simpleName := some "J", access := .publicFlag }] },
    { name := "a/O", access := .publicFlag
      nesting := some
        [{ inner := "a/O$I", outer := some "a/O", simpleName := some "I", access := .publicFlag }] },
    { name := "a/O$I", access := .publicFlag }]

theorem exists_renamed_node :
    ∃ tree ∈ (Forest.build twiceNamed {} .keep).1.trees, ∃ n ∈ tree.nodes,
      n.name = "a/O$I" ∧ n.renamedFrom = some "I" := by
  have hfound : ((Forest.build twiceNamed {} .keep).1.trees.any fun t =>
      t.nodes.any fun n => n.name == "a/O$I" && n.renamedFrom == some "I") = true := by
    simp only [Forest.build, Forest.ofLinks, Ground.nest, Ground.unclaimed,
      sortByKey_eq_insertionSort]
    decide +kernel
  obtain ⟨tree, ht, hnode⟩ := List.any_eq_true.mp hfound
  obtain ⟨n, hn, hnamed⟩ := List.any_eq_true.mp hnode
  simp only [Bool.and_eq_true, beq_iff_eq] at hnamed
  exact ⟨tree, ht, n, hn, hnamed⟩

theorem twiceNamed_keeps_first_name :
    let g := Ground.ofLibrary twiceNamed {}
    ∃ tree ∈ (Forest.build twiceNamed {} .keep).1.trees, ∃ n ∈ tree.nodes,
      n.renamedFrom = some "I" ∧ n.simpleName = firstName? g.entries n.name ∧
        n.simpleName ≠ some "I" ∧ ∃ c ∈ g.claims, c.inner = n.name ∧ c.simpleName = some "I" := by
  obtain ⟨tree, ht, n, hn, _, hold⟩ := exists_renamed_node
  exact ⟨tree, ht, n, hn, hold,
    (names_kept_from_first_entry twiceNamed {}).2.2.1 tree ht n hn "I" hold⟩

/-- The only claim that is made gives the right name, but it is taken in with the wrong one, and the
node of the member carries both. -/
theorem misnaming_entry_renames_member :
    let g := Ground.ofLibrary twiceNamed {}
    (g.claims.map fun c => (c.inner, c.simpleName)) = [("a/O$I", some "I")] ∧
      ((Census.take g .keep).table.settled.map fun c => (c.simpleName, c.renamedFrom)) =
        [(some "J", some "I")] ∧
      ∃ tree ∈ (Forest.build twiceNamed {} .keep).1.trees, ∃ n ∈ tree.nodes,
        n.name = "a/O$I" ∧ n.renamedFrom = some "I" :=
  ⟨by decide +kernel, by decide +kernel, exists_renamed_node⟩

end ClassSketch
