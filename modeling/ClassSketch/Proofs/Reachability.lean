import ClassSketch.Proofs.ClaimRuns
import ClassSketch.Proofs.Partition
import ClassSketch.Proofs.Survey

/-! Nesting is reachability. A class lies in another one's file if and only if it can be reached
from a class that nobody claims. It then lies in the file of the first such class, as deep as the
shortest way from there is long. -/

namespace ClassSketch

namespace Ground

/-- A way from class to class, each lying in the one before it, with its length. -/
inductive NestPath (g : Ground) (t : ClaimTable) : Nat → String → String → Prop
  | refl (n : String) : NestPath g t 0 n n
  | step {k : Nat} {u p c : String} (path : NestPath g t k u p) (last : g.Nests t p c) :
      NestPath g t (k + 1) u c

def Reaches (g : Ground) (t : ClaimTable) (u c : String) : Prop := ∃ k, g.NestPath t k u c

theorem path_of_links {g : Ground} {t : ClaimTable} {links : List Link}
    (h : ∀ link ∈ links, g.Nests t link.parent link.child.name) (n : String) :
    g.NestPath t (depthIn links n) (rootIn links n) n := by
  induction links generalizing n with
  | nil => exact .refl n
  | cons link links ih =>
    have hlinks : ∀ l ∈ links, g.Nests t l.parent l.child.name :=
      fun l hl => h l (List.mem_cons_of_mem _ hl)
    by_cases hn : link.child.name = n
    · subst hn
      rw [depthIn_cons_self, rootIn_cons_self]
      exact .step (ih hlinks link.parent) (h link List.mem_cons_self)
    · rw [depthIn_cons_of_ne hn, rootIn_cons_of_ne hn]
      exact ih hlinks n

end Ground

theorem Walk.Sound.nests {g : Ground} {t : ClaimTable} {w : Walk} (h : w.Sound g t) :
    ∀ link ∈ w.links, g.Nests t link.parent link.child.name := by
  intro link hl
  obtain ⟨_, _, _, _, _, _, hn, rfl⟩ := h.proper link hl
  exact hn

namespace Surveyed

variable {g : Ground} {t : ClaimTable} {order : List String} {links : List Link}

theorem rootIn_unclaimed (h : Surveyed g t (g.unclaimed t) order [] links) {u : String}
    (hu : u ∈ g.unclaimed t) : rootIn links u = u ∧ depthIn links u = 0 := by
  have hout : u ∉ links.map (·.child.name) := fun hm => h.linked.disjoint u hm hu
  exact ⟨rootIn_of_not_mem hout, depthIn_of_not_mem hout⟩

/-- What is reached from a root has a place, in the tree of that root or of an earlier one; if in
that root's tree, at most as deep as the way is long. -/
theorem bounded (h : Surveyed g t (g.unclaimed t) order [] links) {k : Nat} {u n : String}
    (hu : u ∈ g.unclaimed t) (hp : g.NestPath t k u n) :
    (n ∈ g.unclaimed t ∨ n ∈ links.map (·.child.name)) ∧ rootIn links n ≤ u ∧
      (rootIn links n = u → depthIn links n ≤ k) := by
  induction hp with
  | refl n =>
    obtain ⟨hroot, hdepth⟩ := h.rootIn_unclaimed hu
    have hle : rootIn links n ≤ n :=
      Eq.subst (motive := fun m => m ≤ n) hroot.symm (String.le_refl n)
    exact ⟨.inl hu, hle, fun _ => Nat.le_of_eq hdepth⟩
  | @step k u p c _ last ih =>
    obtain ⟨hplace, hle, hdepth⟩ := ih hu
    have hlooked : p ∈ order := by simpa using h.spread p hplace
    obtain ⟨hc, hcp, hstep⟩ := h.closed p hlooked c last
    refine ⟨.inr hc, String.le_trans hcp hle, fun hroot => ?_⟩
    have hpu : rootIn links p = u := String.le_antisymm hle (hroot ▸ hcp)
    have hdc := hstep (hroot.trans hpu.symm)
    have hdp := hdepth hpu
    omega

theorem placed_iff (h : Surveyed g t (g.unclaimed t) order [] links)
    (hn : ∀ link ∈ links, g.Nests t link.parent link.child.name) {c : String} :
    c ∈ links.map (·.child.name) ↔
      c ∉ g.unclaimed t ∧ ∃ u ∈ g.unclaimed t, g.Reaches t u c := by
  constructor
  · intro hc
    exact ⟨h.linked.disjoint c hc, _, h.rooted c hc, _, g.path_of_links hn c⟩
  · rintro ⟨hout, u, hu, k, hp⟩
    exact (h.bounded hu hp).1.resolve_left hout

theorem root_least (h : Surveyed g t (g.unclaimed t) order [] links) {u c : String}
    (hu : u ∈ g.unclaimed t) (hr : g.Reaches t u c) : rootIn links c ≤ u := by
  obtain ⟨k, hp⟩ := hr
  exact (h.bounded hu hp).2.1

theorem depth_least (h : Surveyed g t (g.unclaimed t) order [] links) {c : String} {k : Nat}
    (hc : c ∈ links.map (·.child.name)) (hp : g.NestPath t k (rootIn links c) c) :
    depthIn links c ≤ k :=
  (h.bounded (h.rooted c hc) hp).2.2 rfl

end Surveyed

namespace Forest

theorem exists_row_of_name {f : Forest} (hnum : ∀ t ∈ f.trees, ∃ s, t = ClassTree.ofTree s)
    {n : String} (h : n ∈ f.names) : ∃ t ∈ f.trees, ∃ r ∈ t.rows, r.value.name = n := by
  obtain ⟨t, ht, hn⟩ := mem_names.mp h
  obtain ⟨m, hm, rfl⟩ := List.mem_map.mp hn
  obtain ⟨s, rfl⟩ := hnum t ht
  obtain ⟨r, hr, rfl⟩ := Tree.exists_row none 0 hm
  exact ⟨_, ht, r, ClassTree.rows_ofTree s ▸ hr, rfl⟩

/-- The row of one class under another, by looking for it. -/
theorem exists_row_of_any {f : Forest} {n p : String}
    (h : (f.trees.any fun t => t.rows.any fun r =>
      r.value.name == n && r.parent.any fun q => q.name == p) = true) :
    ∃ t ∈ f.trees, ∃ r ∈ t.rows, ∃ q, r.parent = some q ∧ r.value.name = n ∧ q.name = p := by
  obtain ⟨t, ht, h⟩ := List.any_eq_true.mp h
  obtain ⟨r, hr, h⟩ := List.any_eq_true.mp h
  rw [Bool.and_eq_true, beq_iff_eq] at h
  cases hq : r.parent with
  | none => simp [hq] at h
  | some q => exact ⟨t, ht, r, hr, q, hq, h.1, by simpa [hq] using h.2⟩

end Forest

namespace Walk

variable {g : Ground} {t : ClaimTable} {w : Walk}

theorem Sound.names_forest (h : w.Sound g t) :
    (Forest.ofLinks g.classes w.links).names.Perm g.names :=
  Forest.names_ofLinks g.distinct h.placed_mem h.linked_unplaced

theorem Sound.row_link (h : w.Sound g t) {tree : ClassTree}
    (ht : tree ∈ (Forest.ofLinks g.classes w.links).trees) {r : Tree.Row ClassNode}
    (hr : r ∈ tree.rows) {q : ClassNode} (hq : r.parent = some q) :
    ∃ host ∈ g.classes, ∃ d ∈ g.classes, ∃ s, host.name = q.name ∧ t.claim? d.name = some s ∧
      g.linkUnder t host d s ∈ w.links ∧
      r.value.unnumbered = .ofClaim d s (g.kindUnder host d s) (t.enclosersOf d.name) := by
  obtain ⟨_, ⟨hnone, _⟩ | ⟨q', link, hl, hq', hv, hp⟩⟩ :=
    Forest.row_ofLinks h.linked_unplaced ht hr
  · rw [hnone] at hq
    cases hq
  · rw [hq, Option.some.injEq] at hq'
    subst hq'
    obtain ⟨host, hhost, d, hd, s, hs, _, rfl⟩ := h.proper link hl
    exact ⟨host, hhost, d, hd, s, hp.symm, hs, hl, hv⟩

theorem Sound.row_below (h : w.Sound g t) {tree : ClassTree}
    (ht : tree ∈ (Forest.ofLinks g.classes w.links).trees) {r : Tree.Row ClassNode}
    (hr : r ∈ tree.rows) {q : ClassNode} (hq : r.parent = some q) :
    r.value.name ∈ w.links.map (·.child.name) ∧ g.Nests t q.name r.value.name := by
  obtain ⟨host, _, d, _, s, hhost, _, hl, hv⟩ := h.row_link ht hr hq
  have hname : r.value.name = d.name := congrArg ClassNode.name hv
  rw [hname, ← hhost]
  exact ⟨List.mem_map.mpr ⟨_, hl, rfl⟩, h.nests _ hl⟩

theorem Sound.row_at_root (h : w.Sound g t) {tree : ClassTree}
    (ht : tree ∈ (Forest.ofLinks g.classes w.links).trees) {r : Tree.Row ClassNode}
    (hr : r ∈ tree.rows) (hq : r.parent = none) :
    r.value.name ∉ w.links.map (·.child.name) ∧ r.value.kind = .root := by
  obtain ⟨_, ⟨_, c, _, hc, hv⟩ | ⟨_, _, _, hsome, _⟩⟩ :=
    Forest.row_ofLinks h.linked_unplaced ht hr
  · have hname : r.value.name = c.name := by
      simpa [ClassNode.ofDecl] using congrArg ClassNode.name hv
    exact ⟨hname ▸ hc, by simpa [ClassNode.ofDecl] using congrArg ClassNode.kind hv⟩
  · rw [hq] at hsome
    cases hsome

theorem Sound.below_root_iff (h : w.Sound g t) {c : String} :
    (∃ tree ∈ (Forest.ofLinks g.classes w.links).trees, ∃ r ∈ tree.rows,
        r.value.name = c ∧ r.parent.isSome = true) ↔ c ∈ w.links.map (·.child.name) := by
  constructor
  · rintro ⟨tree, ht, r, hr, rfl, hsome⟩
    obtain ⟨q, hq⟩ := Option.isSome_iff_exists.mp hsome
    exact (h.row_below ht hr hq).1
  · intro hc
    have hn := h.names_forest.mem_iff.mpr (h.placed_mem c hc)
    obtain ⟨tree, ht, r, hr, rfl⟩ := Forest.exists_row_of_name (Forest.ofLinks_numbered _ _) hn
    refine ⟨tree, ht, r, hr, rfl, ?_⟩
    cases hq : r.parent with
    | none => exact absurd hc (h.row_at_root ht hr hq).1
    | some q => rfl

theorem Sound.lone_tree (h : w.Sound g t)
    (hroot : ∀ n ∈ w.links.map (·.child.name), rootIn w.links n ∈ g.unclaimed t) {c : String}
    (hc : c ∈ g.names) (hclaimed : c ∉ g.unclaimed t) (hout : c ∉ w.links.map (·.child.name)) :
    ∃ tree ∈ (Forest.ofLinks g.classes w.links).trees,
      tree.root.name = c ∧ tree.size = 1 ∧ tree.root.kind = .root := by
  have hnum := Forest.ofLinks_numbered g.classes w.links
  obtain ⟨tree, ht, r, hr, hrc⟩ :=
    Forest.exists_row_of_name hnum (h.names_forest.mem_iff.mpr hc)
  obtain ⟨s, rfl⟩ := hnum tree ht
  have htop : r.parent = none := by
    cases hq : r.parent with
    | none => rfl
    | some q => exact absurd (hrc ▸ (h.row_below ht hr hq).1) hout
  have hvalue : r.value = (ClassTree.ofTree s).root := by
    rw [ClassTree.rows_ofTree] at hr
    exact (Tree.row_parent_eq_none_iff (ClassTree.nodup_nodes_ofTree s) hr).mp htop
  have hname : (ClassTree.ofTree s).root.name = c := hvalue ▸ hrc
  refine ⟨_, ht, hname, ?_, hvalue ▸ (h.row_at_root ht hr htop).2⟩
  -- every node of the tree has the name of the root
  have hall : ∀ n ∈ (ClassTree.ofTree s).names, n = c := by
    intro n hn
    obtain ⟨m, hm, rfl⟩ := List.mem_map.mp hn
    obtain ⟨r', hr', rfl⟩ := Tree.exists_row none 0 hm
    rw [← ClassTree.rows_ofTree] at hr'
    have hr'c : rootIn w.links r'.value.name = c :=
      (Forest.row_ofLinks h.linked_unplaced ht hr').1.1.symm.trans hname
    by_cases hp : r'.value.name ∈ w.links.map (·.child.name)
    · exact absurd (hr'c ▸ hroot _ hp) hclaimed
    · rwa [rootIn_of_not_mem hp] at hr'c
  have hnd : (ClassTree.ofTree s).names.Nodup :=
    (List.nodup_flatMap.mp (h.names_forest.nodup_iff.mpr g.distinct)).1 _ ht
  rw [List.eq_replicate_of_mem hall, List.nodup_replicate] at hnd
  have hpos := List.length_pos_of_mem (ClassTree.root_name_mem (ClassTree.ofTree s))
  have hlen : (ClassTree.ofTree s).names.length = (ClassTree.ofTree s).size := List.length_map _
  omega

end Walk

/-- With nesting on, for every library, options and renaming: the classes below roots are those
that are reached from unclaimed classes and are not unclaimed themselves. The owner of such a class
is the first unclaimed class that reaches it, its depth is the length of the shortest way from
there, and it lies in its parent. A claimed class that is not reached stands alone as a root. -/
theorem nesting_is_reachability (l : Library) (o : Options) (policy : Renaming)
    (ho : o.nest = true) :
    let g := Ground.ofLibrary l o
    let t := (Census.take g policy).table
    let f := (Forest.build l o policy).1
    (∀ c, (∃ tree ∈ f.trees, ∃ r ∈ tree.rows, r.value.name = c ∧ r.parent.isSome = true) ↔
        c ∉ g.unclaimed t ∧ ∃ u ∈ g.unclaimed t, g.Reaches t u c) ∧
      (∀ tree ∈ f.trees, ∀ r ∈ tree.rows, ∀ q, r.parent = some q →
        ∃ u ∈ g.unclaimed t, f.owner? r.value.name = some u ∧
          g.Reaches t u r.value.name ∧
          (∀ v ∈ g.unclaimed t, g.Reaches t v r.value.name → u ≤ v) ∧
          g.NestPath t r.depth u r.value.name ∧
          (∀ k, g.NestPath t k u r.value.name → r.depth ≤ k) ∧
          g.Nests t q.name r.value.name) ∧
      ∀ c ∈ g.names, t.isClaimed c = true → (∀ u ∈ g.unclaimed t, ¬ g.Reaches t u c) →
        ∃ tree ∈ f.trees, tree.root.name = c ∧ tree.size = 1 ∧ tree.root.kind = .root := by
  intro g t f
  have hs : (g.nest t).Sound g t := Walk.sound_nest g t
  have hsurvey : Surveyed g t (g.unclaimed t) (g.visits t) [] (g.nest t).links :=
    Ground.surveyed_nest (Census.isClaimed_of_mem_nestedIn g policy)
  have hf : f = Forest.ofLinks g.classes (g.nest t).links := by simp [f, Forest.build, ho, g, t]
  have hd : f.Distinct := Forest.distinct_build l o policy
  refine ⟨fun c => ?_, fun tree ht r hr q hq => ?_, fun c hc hclaimed hnot => ?_⟩
  · rw [hf, hs.below_root_iff, hsurvey.placed_iff hs.nests]
  · obtain ⟨hplaced, hn⟩ := hs.row_below (hf ▸ ht) hr hq
    obtain ⟨hroot, hdepth⟩ := (Forest.row_ofLinks hs.linked_unplaced (hf ▸ ht) hr).1
    have hpath := g.path_of_links hs.nests r.value.name
    refine ⟨_, hsurvey.rooted _ hplaced, ?_, ⟨_, hpath⟩, fun v hv => hsurvey.root_least hv,
      ?_, ?_, hn⟩
    · refine hd.owner?_eq_some_iff.mpr ⟨tree, ht, hroot, ?_⟩
      obtain ⟨s, rfl⟩ := Forest.build_numbered l o policy tree ht
      exact List.mem_map_of_mem (ClassTree.mem_nodes_of_mem_rows hr)
    · rw [hdepth]
      exact hpath
    · intro k hk
      rw [hdepth]
      exact hsurvey.depth_least hplaced hk
  · rw [hf]
    refine hs.lone_tree hsurvey.rooted hc ?_ ?_
    · simp [Ground.mem_unclaimed, hclaimed]
    · rw [hsurvey.placed_iff hs.nests]
      rintro ⟨_, u, hu, hr⟩
      exact hnot u hu hr

/-- Two classes that each say that a local class lies in them, with different flags. -/
def twoHosts : Library :=
  let entry (access : AccessFlags) : NestingEntry :=
    { inner := "a/L", simpleName := some "L", access }
  .ofList [{ name := "a/A", nesting := some [entry .abstractFlag] },
    { name := "a/B", nesting := some [entry .finalFlag] }, { name := "a/L" }]

theorem twoHosts_local_is_below : ({} : Options).nest = true ∧
    ∃ tree ∈ (Forest.build twoHosts {} .keep).1.trees, ∃ r ∈ tree.rows,
      r.value.name = "a/L" ∧ r.parent.isSome = true := by
  refine ⟨rfl, ((nesting_is_reachability twoHosts {} .keep rfl).1 "a/L").mpr ⟨?_, "a/A", ?_, 1, ?_⟩⟩
  · rw [Ground.mem_unclaimed]
    decide
  · rw [Ground.mem_unclaimed]
    decide
  · exact .step (.refl "a/A") (by decide)

end ClassSketch
