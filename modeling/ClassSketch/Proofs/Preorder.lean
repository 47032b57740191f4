import ClassSketch.Proofs.PreparationOrder

/-! Numbers in preorder. In a built tree the nodes at and below a node have the numbers that follow
its own, so the subtrees are intervals and a walk with a stack goes through the numbers one by one.
The depth of a node is the number of intervals around it. -/

namespace ClassSketch

theorem eq_range'_of_infix {ns : List Nat} {m n : Nat} (h : ns <:+: List.range' m n) :
    ∃ k, ns = List.range' k ns.length := by
  obtain ⟨before, after, he⟩ := h
  obtain ⟨j, _, hfrom, _⟩ := List.range'_eq_append_iff.mp he.symm
  obtain ⟨k, _, _, hns⟩ := List.range'_eq_append_iff.mp hfrom.symm
  exact ⟨m + k * 1, by rw [hns, List.length_range']⟩

namespace Tree

variable {α : Type}

theorem Inside.toList_within {s t : Tree α} (h : Inside s t) : s.toList <:+: t.toList := by
  induction h with
  | refl => exact List.infix_rfl
  | deeper mem _ ih =>
    rw [toList_node]
    exact (ih.trans (infix_flatMap_of_mem mem)).trans (List.suffix_cons _ _).isInfix

end Tree

namespace ClassTree

/-- The numbers of a node and of all nodes below it, parents before children. -/
def descendants (t : ClassTree) (id : Nat) : List Nat :=
  ((t.subtree? id).map fun s => s.toList.map (·.id)).getD []

/-- At most so many nodes, each looked up by its number: the one on top of the stack comes next, and
its children take its place. -/
def stackWalk (t : ClassTree) : Nat → List Nat → List Nat
  | 0, _ => []
  | _, [] => []
  | steps + 1, id :: stack => id :: t.stackWalk steps (t.childIds id ++ stack)

section Walks

variable {t : ClassTree} (h : t.Indexed)

include h

theorem Indexed.descendants_eq {s : Tree ClassNode} (hs : s.Inside t.tree) :
    t.descendants s.value.id = s.toList.map (·.id) := by
  rw [descendants, h.subtree?_inside hs]
  rfl

theorem Indexed.childIds_node {n : ClassNode} {ts : List (Tree ClassNode)}
    (hs : (Tree.node n ts).Inside t.tree) : t.childIds n.id = ts.map (·.value.id) := by
  obtain ⟨r, hr, _, hchildren⟩ := (t.holds_tree.inside hs).row h
  rw [Tree.value_node] at hr
  rw [childIds, hr, Option.map_some, Option.getD_some, hchildren, List.map_map]
  rfl

theorem Indexed.stackWalk_eq {s : Tree ClassNode} (hs : s.Inside t.tree) (steps : Nat)
    (stack : List Nat) :
    t.stackWalk (s.size + steps) (s.value.id :: stack) =
      s.toList.map (·.id) ++ t.stackWalk steps stack := by
  induction s generalizing steps stack with
  | node n ts ih =>
    -- the siblings that are still on the stack are gone through before what lies under them
    have hsiblings : ∀ us : List (Tree ClassNode), (∀ u ∈ us, u ∈ ts) →
        t.stackWalk ((us.flatMap Tree.toList).length + steps) (us.map (·.value.id) ++ stack) =
          (us.flatMap Tree.toList).map (·.id) ++ t.stackWalk steps stack := by
      intro us
      induction us with
      | nil => simp
      | cons u us ihus =>
        intro hmem
        have hu := hmem u List.mem_cons_self
        have hrest := ihus fun v hv => hmem v (List.mem_cons_of_mem _ hv)
        have hsize : ((u :: us).flatMap Tree.toList).length + steps =
            u.size + ((us.flatMap Tree.toList).length + steps) := by
          rw [List.flatMap_cons, List.length_append, Tree.size]
          omega
        rw [hsize, List.map_cons, List.cons_append, ih u hu (hs.child hu), hrest,
          List.flatMap_cons, List.map_append, List.append_assoc]
    have hsize : (Tree.node n ts).size + steps = (ts.flatMap Tree.toList).length + steps + 1 := by
      rw [Tree.size, Tree.toList_node, List.length_cons]
      omega
    rw [hsize, Tree.value_node, stackWalk, h.childIds_node hs, hsiblings ts fun _ hu => hu,
      Tree.toList_node, List.map_cons, List.cons_append]

theorem Indexed.mem_descendants_iff {i j : Nat} (hj : j < t.size) :
    i ∈ t.descendants j ↔ Relation.ReflTransGen (fun a b => t.parent? a = some b) i j := by
  rw [← h.mem_block_iff hj]
  obtain ⟨n, ts, hin, rfl, _⟩ := h.exists_inside hj
  have hblock : t.block n.id = _ := h.block_eq hin
  have hdescendants : t.descendants n.id = _ := h.descendants_eq hin
  rw [hblock, hdescendants]
  exact ((perm_orderFrom _).map _).mem_iff.symm

end Walks

section Intervals

variable {t : ClassTree} (h : t.Numbered)

include h

theorem Numbered.ids_inside {s : Tree ClassNode} (hs : s.Inside t.tree) :
    s.toList.map (·.id) = List.range' s.value.id s.size := by
  have hwithin : s.toList.map (·.id) <:+: List.range' 0 t.size := by
    rw [← List.range_eq_range', ← h]
    exact hs.toList_within.map _
  obtain ⟨k, hk⟩ := eq_range'_of_infix hwithin
  obtain ⟨n, ts⟩ := s
  rw [List.length_map, ← Tree.size] at hk
  have hfirst := congrArg List.head? hk
  rw [Tree.size, Tree.toList_node, List.map_cons, List.length_cons, List.range'_succ] at hfirst
  rw [hk, Tree.value_node, Option.some.inj hfirst]

theorem Numbered.parent_lt {i p : Nat} (hp : t.parent? i = some p) : p < i := by
  have hin := h.indexed
  obtain ⟨hsize, _⟩ := hin.wellLinked.count_childIds i p hp
  obtain ⟨n, ts, hs, rfl, hchildren⟩ := hin.exists_inside hsize
  have hids := h.ids_inside hs
  rw [Tree.size, Tree.toList_node, List.map_cons, List.length_cons, Tree.value_node,
    List.range'_succ] at hids
  have hi := hin.mem_childIds_iff_parent?.mpr hp
  rw [hchildren] at hi
  obtain ⟨u, hu, rfl⟩ := List.mem_map.mp hi
  have hbelow : u.value.id ∈ (ts.flatMap Tree.toList).map (·.id) :=
    List.mem_map_of_mem (List.mem_flatMap_of_mem hu (Tree.value_mem_toList u))
  rw [(List.cons.inj hids).2, List.mem_range'_1] at hbelow
  omega

theorem Numbered.above_lt {i j : Nat}
    (hup : Relation.TransGen (fun a b => t.parent? a = some b) i j) : j < i := by
  induction hup with
  | single hp => exact h.parent_lt hp
  | tail _ hp ih => exact Nat.lt_trans (h.parent_lt hp) ih

theorem Numbered.mem_trail_iff {i j : Nat} {above : List Nat} (ha : t.Trail i above) :
    j ∈ above ↔ Relation.TransGen (fun a b => t.parent? a = some b) i j := by
  induction ha with
  | root =>
    refine ⟨fun hj => absurd hj List.not_mem_nil, fun hup => ?_⟩
    exact absurd (h.above_lt hup) (Nat.not_lt_zero j)
  | @child i p above upper mem ih =>
    have hp : t.parent? i = some p := h.indexed.mem_childIds_iff_parent?.mp mem
    rw [List.mem_cons, ih]
    constructor
    · rintro (rfl | hup)
      · exact .single hp
      · exact .head hp hup
    · intro hup
      rcases Relation.TransGen.head'_iff.mp hup with ⟨q, hq, hrest⟩
      obtain rfl := Option.some.inj (hp.symm.trans hq)
      exact Relation.reflTransGen_iff_eq_or_transGen.mp hrest

theorem Numbered.nodup_trail {i : Nat} {above : List Nat} (ha : t.Trail i above) :
    above.Nodup := by
  induction ha with
  | root => exact List.nodup_nil
  | child upper _ ih =>
    refine List.nodup_cons.mpr ⟨fun hp => ?_, ih⟩
    exact Nat.lt_irrefl _ (h.above_lt ((h.mem_trail_iff upper).mp hp))

end Intervals

theorem Indexed.depth_trail {t : ClassTree} (h : t.Indexed) {i : Nat} {above : List Nat}
    (ha : t.Trail i above) {r : Tree.Row ClassNode} (hr : t.rows[i]? = some r) :
    r.depth = above.length := by
  induction ha generalizing r with
  | root =>
    have hsize : 0 < t.size := h.wellLinked.size_pos
    have hnone : t.parent? 0 = none := (h.parent?_eq_none_iff hsize).mpr rfl
    rcases Tree.row_cases (mem_rows_iff.mp (h.row_at_iff.mp hr).1) with
      ⟨_, _, hdepth⟩ | ⟨s, _, hparent, _⟩
    · exact hdepth
    · simp [parent?, hr, hparent] at hnone
  | @child i p above upper mem ih =>
    obtain ⟨q, hq, s, hs, hqi, hsp, hparent⟩ :=
      h.parent?_eq_some_iff.mp (h.mem_childIds_iff_parent?.mp mem)
    obtain rfl : q = r := Option.some.inj ((h.row_at_iff.mpr ⟨hq, hqi⟩).symm.trans hr)
    have hs' := h.row_at_iff.mpr ⟨hs, hsp⟩
    rcases Tree.row_cases (mem_rows_iff.mp hq) with ⟨_, hnone, _⟩ | ⟨s₂, hs₂, hsome, _, hdepth⟩
    · simp [hnone] at hparent
    · have hvalue : s₂.value = s.value := Option.some.inj (hsome.symm.trans hparent)
      have hnodup : t.tree.toList.Nodup := h.nodup.of_map _
      obtain rfl := Tree.row_unique hnodup hs₂ (mem_rows_iff.mp hs) hvalue
      rw [hdepth, ih hs', List.length_cons]

/-- The depth of a node is the number of nodes properly above it. -/
theorem Numbered.depth_eq {t : ClassTree} (h : t.Numbered) {i : Nat} {r : Tree.Row ClassNode}
    (hr : t.rows[i]? = some r) :
    r.depth = ((List.range t.size).filter fun j => j ≠ i ∧ i ∈ t.descendants j).length := by
  have hin := h.indexed
  obtain ⟨hm, hid⟩ := hin.row_at_iff.mp hr
  have hi : i < t.size := hid ▸ hin.id_lt (mem_nodes_of_mem_rows hm)
  obtain ⟨above, ha, _⟩ := hin.wellLinked.existsUnique_trail hi
  rw [hin.depth_trail ha hr]
  refine List.Perm.length_eq ?_
  rw [List.perm_ext_iff_of_nodup (h.nodup_trail ha) (List.nodup_range.filter _)]
  intro j
  rw [h.mem_trail_iff ha, List.mem_filter, List.mem_range, decide_eq_true_iff]
  constructor
  · intro hup
    have hlt := h.above_lt hup
    have hj : j < t.size := by omega
    exact ⟨hj, by omega, (hin.mem_descendants_iff hj).mpr hup.to_reflTransGen⟩
  · rintro ⟨hj, hne, hmem⟩
    have hup := (hin.mem_descendants_iff hj).mp hmem
    exact (Relation.reflTransGen_iff_eq_or_transGen.mp hup).resolve_left hne

theorem stackWalk_nil (t : ClassTree) (steps : Nat) : t.stackWalk steps [] = [] := by
  cases steps <;> rfl

theorem Numbered.interval {t : ClassTree} (h : t.Numbered) {i : Nat} (hi : i < t.size) :
    ∃ s, t.subtree? i = some s ∧ t.descendants i = List.range' i s.size ∧
      t.stackWalk t.size [i] = List.range' i s.size := by
  have hin := h.indexed
  obtain ⟨n, ts, hs, rfl, _⟩ := hin.exists_inside hi
  have hids : (Tree.node n ts).toList.map (·.id) = List.range' n.id (Tree.node n ts).size :=
    h.ids_inside hs
  refine ⟨_, hin.subtree?_inside hs, (hin.descendants_eq hs).trans hids, ?_⟩
  have hle : (Tree.node n ts).size ≤ t.size := hs.toList_within.length_le
  have hwalk := hin.stackWalk_eq hs (t.size - (Tree.node n ts).size) []
  rw [Nat.add_sub_cancel' hle, hids, stackWalk_nil, List.append_nil] at hwalk
  exact hwalk

/-- Rows stand by their numbers, and nodes are found by their names. Siblings ascend by name. The
subtree at a node is the interval that starts with its number, which is also what a walk with a stack
lists and what lies below the node by the links from children to parents; the depth of a node counts
the intervals around it. -/
structure InPreorder (t : ClassTree) : Prop where
  rows_length : t.rows.length = t.size
  found : ∀ i r, t.rows[i]? = some r → r.value.id = i ∧ t.find? r.value.name = some i
  ascending : ∀ r ∈ t.rows, (r.children.map (·.name)).Pairwise (· < ·)
  interval : ∀ i < t.size, ∃ s, t.subtree? i = some s ∧ t.descendants i = List.range' i s.size ∧
    t.stackWalk t.size [i] = List.range' i s.size
  whole : t.descendants 0 = List.range t.size
  below_iff : ∀ i < t.size, ∀ j,
    j ∈ t.descendants i ↔ Relation.ReflTransGen (fun a b => t.parent? a = some b) j i
  depth_eq : ∀ i r, t.rows[i]? = some r →
    r.depth = ((List.range t.size).filter fun j => j ≠ i ∧ i ∈ t.descendants j).length

theorem ChildrenSorted.ascending {t : ClassTree} (h : t.ChildrenSorted) (hnd : t.names.Nodup)
    {r : Tree.Row ClassNode} (hr : r ∈ t.rows) : (r.children.map (·.name)).Pairwise (· < ·) := by
  have hdistinct : (r.children.map (·.name)).Nodup :=
    hnd.sublist ((Tree.children_sublist (mem_rows_iff.mp hr)).map _)
  refine ((h r hr).and hdistinct).imp fun {a b} hab => ?_
  rw [← String.not_le]
  exact fun hba => hab.2 (String.le_antisymm hab.1 hba)

theorem inPreorder_ofTree {s : Tree ClassNode} (hnd : (ofTree s).names.Nodup)
    (hsorted : (ofTree s).ChildrenSorted) : (ofTree s).InPreorder := by
  have hnum := numbered_ofTree s
  have hin := hnum.indexed
  constructor
  · have hlength := congrArg List.length hin.ids_rows
    rwa [List.length_map, List.length_range] at hlength
  · intro i r hr
    obtain ⟨hm, hid⟩ := hin.row_at_iff.mp hr
    refine ⟨hid, (find?_eq_some_iff hnd).mpr ⟨r.value, ?_, rfl⟩⟩
    exact node?_eq_some_iff.mpr ⟨mem_nodes_of_mem_rows hm, hid⟩
  · exact fun r hr => hsorted.ascending hnd hr
  · exact fun i hi => hnum.interval hi
  · have hroot := hin.descendants_eq .refl
    rw [show (ofTree s).tree.value.id = 0 from hin.root_id] at hroot
    exact hroot.trans hnum
  · exact fun i hi j => hin.mem_descendants_iff hi
  · exact fun i r hr => hnum.depth_eq hr

end ClassTree

/-- Every tree of every built forest is numbered in preorder. -/
theorem Forest.built_in_preorder (l : Library) (o : Options) (policy : Renaming) {t : ClassTree}
    (ht : t ∈ (build l o policy).1.trees) : t.InPreorder := by
  have hsorted := childrenSorted_build l o policy t ht
  have hnd := (distinct_build l o policy).nodup_tree ht
  obtain ⟨s, rfl⟩ := build_numbered l o policy t ht
  exact ClassTree.inPreorder_ofTree hnd hsorted

def threeGenerations : Library :=
  .ofList [
    { name := "a/O$A$X" },
    { name := "a/O"
      nesting := some [{ inner := "a/O$B", outer := some "a/O", simpleName := some "B" },
        { inner := "a/O$A", outer := some "a/O", simpleName := some "A" }] },
    { name := "a/O$B" },
    { name := "a/O$A"
      nesting := some [{ inner := "a/O$A$X", outer := some "a/O$A", simpleName := some "X" }] }]

theorem built_in_preorder_threeGenerations :
    ∃ t ∈ (Forest.build threeGenerations {} .keep).1.trees,
      t.nodes.map (·.name) = ["a/O", "a/O$A", "a/O$A$X", "a/O$B"] ∧
        t.rows.map (·.depth) = [0, 1, 2, 1] ∧ t.descendants 1 = [1, 2] ∧ t.InPreorder := by
  have hfound : ((Forest.build threeGenerations {} .keep).1.trees.any fun t =>
      t.nodes.map (·.name) == ["a/O", "a/O$A", "a/O$A$X", "a/O$B"] &&
        t.rows.map (·.depth) == [0, 1, 2, 1] && t.descendants 1 == [1, 2]) = true := by
    simp only [Forest.build, Forest.ofLinks, Ground.nest, Ground.unclaimed, ClassTree.rows,
      sortByKey_eq_insertionSort]
    decide +kernel
  obtain ⟨t, ht, hchecks⟩ := List.any_eq_true.mp hfound
  simp only [Bool.and_eq_true, beq_iff_eq] at hchecks
  obtain ⟨⟨hnames, hdepths⟩, hbelow⟩ := hchecks
  exact ⟨t, ht, hnames, hdepths, hbelow, Forest.built_in_preorder threeGenerations {} .keep ht⟩

end ClassSketch
