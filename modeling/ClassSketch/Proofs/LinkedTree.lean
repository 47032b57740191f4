import ClassSketch.Proofs.Numbering

/-! A tree as nodes that name each other by numbers. Every number below the size of the tree is that
of one node, and the rows stand in the order of these numbers. -/

namespace ClassSketch

namespace ClassTree

def parent? (t : ClassTree) (id : Nat) : Option Nat := (t.rows[id]?.bind (·.parent)).map (·.id)

def childIds (t : ClassTree) (id : Nat) : List Nat :=
  (t.rows[id]?.map fun r => r.children.map (·.id)).getD []

/-- Node 0 is the only one without a parent. Every other node has one parent, stands once among that
parent's children and among no other's, and going from parent to parent ends at node 0. -/
structure WellLinked (t : ClassTree) : Prop where
  size_pos : 0 < t.size
  parent_eq_none_iff : ∀ i < t.size, t.parent? i = none ↔ i = 0
  count_childIds : ∀ i p, t.parent? i = some p → p < t.size ∧ (t.childIds p).count i = 1
  parent_of_mem : ∀ i p, i ∈ t.childIds p → i < t.size ∧ t.parent? i = some p
  reaches_root : ∀ i < t.size, Relation.ReflTransGen (fun a b => t.parent? a = some b) i 0

/-- Every number below the size is that of one node, and the root has number 0. -/
structure Indexed (t : ClassTree) : Prop where
  ids : (t.nodes.map (·.id)).Perm (List.range t.size)
  root_id : t.root.id = 0

/-- The numbers stand in the order of the nodes. -/
def Numbered (t : ClassTree) : Prop := t.nodes.map (·.id) = List.range t.size

theorem numbered_ofTree (t : Tree ClassNode) : (ofTree t).Numbered := by
  rw [Numbered, ids_ofTree, size_ofTree]

theorem Numbered.indexed {t : ClassTree} (h : t.Numbered) : t.Indexed := by
  refine ⟨.of_eq h, ?_⟩
  have hhead := congrArg List.head? h
  obtain ⟨⟨n, ts⟩, built, index⟩ := t
  rw [nodes, Tree.toList_node, List.map_cons, List.head?_cons, size, Tree.size, Tree.toList_node,
    List.length_cons, List.range_succ_eq_map, List.head?_cons] at hhead
  exact Option.some.inj hhead

section Rows

variable {t : ClassTree}

theorem perm_rows (t : ClassTree) : t.rows.Perm (t.tree.rows none 0) := perm_sortByKey _ _

theorem mem_rows_iff {r : Tree.Row ClassNode} : r ∈ t.rows ↔ r ∈ t.tree.rows none 0 :=
  t.perm_rows.mem_iff

theorem ids_tree_rows (t : ClassTree) :
    (t.tree.rows none 0).map (·.value.id) = t.nodes.map (·.id) := by
  rw [nodes, ← Tree.rows_map_value none 0 t.tree, List.map_map]
  rfl

theorem Indexed.ids_rows (h : t.Indexed) : t.rows.map (·.value.id) = List.range t.size := by
  have hsorted : t.rows.Pairwise fun a b => a.value.id ≤ b.value.id := pairwise_sortByKey _ _
  have hperm : (t.rows.map (·.value.id)).Perm (List.range t.size) := by
    refine (t.perm_rows.map _).trans ?_
    rw [ids_tree_rows]
    exact h.ids
  refine hperm.eq_of_pairwise (fun a b _ _ hab hba => Nat.le_antisymm hab hba)
    (List.pairwise_map.mpr hsorted) ?_
  exact List.pairwise_lt_range.imp fun hab => Nat.le_of_lt hab

theorem Indexed.row_iff (h : t.Indexed) {i : Nat} {r : Tree.Row ClassNode} :
    t.rows[i]? = some r ↔ r ∈ t.tree.rows none 0 ∧ r.value.id = i := by
  have hid : ∀ j (s : Tree.Row ClassNode), t.rows[j]? = some s → s.value.id = j := by
    intro j s hs
    have hids := congrArg (·[j]?) h.ids_rows
    simp only [List.getElem?_map, hs, Option.map_some] at hids
    obtain ⟨_, he⟩ := List.getElem?_eq_some_iff.mp hids.symm
    simpa using he.symm
  rw [← mem_rows_iff]
  constructor
  · exact fun hr => ⟨List.mem_of_getElem? hr, hid i r hr⟩
  · rintro ⟨hr, rfl⟩
    obtain ⟨j, hj⟩ := List.getElem?_of_mem hr
    rwa [hid j r hj]

theorem Indexed.id_lt (h : t.Indexed) {n : ClassNode} (hn : n ∈ t.nodes) : n.id < t.size :=
  List.mem_range.mp (h.ids.mem_iff.mp (List.mem_map_of_mem hn))

theorem Indexed.nodup (h : t.Indexed) : (t.nodes.map (·.id)).Nodup :=
  h.ids.nodup_iff.mpr List.nodup_range

theorem Indexed.node_ext (h : t.Indexed) {m n : ClassNode} (hm : m ∈ t.nodes) (hn : n ∈ t.nodes)
    (hid : m.id = n.id) : m = n :=
  List.inj_on_of_nodup_map h.nodup hm hn hid

theorem Indexed.exists_row (h : t.Indexed) {i : Nat} (hi : i < t.size) :
    ∃ r, t.rows[i]? = some r := by
  have hl := congrArg List.length h.ids_rows
  simp only [List.length_map, List.length_range] at hl
  exact ⟨_, List.getElem?_eq_getElem (hl ▸ hi)⟩

theorem nodup_nodes_ofTree (t : Tree ClassNode) : (ofTree t).nodes.Nodup :=
  (numbered_ofTree t).indexed.nodup.of_map _

theorem mem_nodes_of_mem_rows {r : Tree.Row ClassNode} (h : r ∈ t.rows) : r.value ∈ t.nodes :=
  Tree.row_value_mem (mem_rows_iff.mp h)

theorem parent_row {r : Tree.Row ClassNode} (hr : r ∈ t.rows) {q : ClassNode}
    (hq : r.parent = some q) : ∃ s ∈ t.rows, s.value = q ∧ r.value ∈ s.children := by
  rcases Tree.row_cases (mem_rows_iff.mp hr) with ⟨_, hpar, _⟩ | ⟨s, hs, hpar, hc, _⟩
  · simp [hpar] at hq
  · exact ⟨s, mem_rows_iff.mpr hs, Option.some.inj (hpar.symm.trans hq), hc⟩

end Rows

section Links

variable {t : ClassTree} (h : t.Indexed)

include h

theorem Indexed.row_at_iff {i : Nat} {r : Tree.Row ClassNode} :
    t.rows[i]? = some r ↔ r ∈ t.rows ∧ r.value.id = i := by
  rw [h.row_iff, mem_rows_iff]

theorem Indexed.parent?_eq_some_iff {i p : Nat} :
    t.parent? i = some p ↔
      ∃ r ∈ t.rows, ∃ s ∈ t.rows, r.value.id = i ∧ s.value.id = p ∧ r.parent = some s.value := by
  simp only [parent?, Option.map_eq_some_iff, Option.bind_eq_some_iff]
  constructor
  · rintro ⟨q, ⟨r, hr, hq⟩, rfl⟩
    obtain ⟨hm, hi⟩ := h.row_at_iff.mp hr
    obtain ⟨s, hs, rfl, _⟩ := parent_row hm hq
    exact ⟨r, hm, s, hs, hi, rfl, hq⟩
  · rintro ⟨r, hr, s, _, hi, hp, hq⟩
    exact ⟨s.value, ⟨r, h.row_at_iff.mpr ⟨hr, hi⟩, hq⟩, hp⟩

theorem Indexed.childIds_eq {r : Tree.Row ClassNode} (hr : r ∈ t.rows) :
    t.childIds r.value.id = r.children.map (·.id) := by
  rw [childIds, h.row_at_iff.mpr ⟨hr, rfl⟩]
  rfl

theorem Indexed.mem_childIds_iff {i p : Nat} :
    i ∈ t.childIds p ↔ ∃ s ∈ t.rows, s.value.id = p ∧ ∃ c ∈ s.children, c.id = i := by
  constructor
  · intro hi
    cases hp : t.rows[p]? with
    | none => simp [childIds, hp] at hi
    | some s =>
      obtain ⟨hs, rfl⟩ := h.row_at_iff.mp hp
      rw [h.childIds_eq hs] at hi
      exact ⟨s, hs, rfl, List.mem_map.mp hi⟩
  · rintro ⟨s, hs, rfl, hc⟩
    rw [h.childIds_eq hs]
    exact List.mem_map.mpr hc

theorem Indexed.nodup_childIds (p : Nat) : (t.childIds p).Nodup := by
  cases hp : t.rows[p]? with
  | none => simp [childIds, hp]
  | some s =>
    obtain ⟨hs, rfl⟩ := h.row_at_iff.mp hp
    rw [h.childIds_eq hs]
    exact h.nodup.sublist ((Tree.children_sublist (mem_rows_iff.mp hs)).map ClassNode.id)

theorem Indexed.mem_childIds_iff_parent? {i p : Nat} :
    i ∈ t.childIds p ↔ t.parent? i = some p := by
  rw [h.mem_childIds_iff, h.parent?_eq_some_iff]
  constructor
  · rintro ⟨s, hs, hp, c, hc, hi⟩
    obtain ⟨r, hr, rfl, hq⟩ := Tree.child_row (mem_rows_iff.mp hs) hc
    exact ⟨r, mem_rows_iff.mpr hr, s, hs, hi, hp, hq⟩
  · rintro ⟨r, hr, s, hs, hi, hp, hq⟩
    obtain ⟨s', hs', he, hc⟩ := parent_row hr hq
    exact ⟨s', hs', he ▸ hp, r.value, hc, hi⟩

theorem Indexed.parent?_eq_none_iff {i : Nat} (hi : i < t.size) : t.parent? i = none ↔ i = 0 := by
  obtain ⟨r, hr⟩ := h.exists_row hi
  obtain ⟨hm, rfl⟩ := h.row_at_iff.mp hr
  have hn : t.parent? r.value.id = none ↔ r.parent = none := by
    simp [parent?, hr]
  have hv := mem_nodes_of_mem_rows hm
  rw [hn, Tree.row_parent_eq_none_iff (h.nodup.of_map _) (mem_rows_iff.mp hm)]
  constructor
  · intro he
    rw [he]
    exact h.root_id
  · intro he
    exact h.node_ext hv (Tree.value_mem_toList _) (he.trans h.root_id.symm)

theorem Indexed.reaches_value {s : Tree ClassNode} {parent : Option ClassNode} {depth : Nat}
    (hrows : ∀ r ∈ s.rows parent depth, r ∈ t.tree.rows none 0) {r : Tree.Row ClassNode}
    (hr : r ∈ s.rows parent depth) :
    Relation.ReflTransGen (fun a b => t.parent? a = some b) r.value.id s.value.id := by
  refine (Tree.reaches_root hr).lift ClassNode.id ?_
  rintro a b ⟨q, hq, rfl, hb⟩
  have hq := mem_rows_iff.mpr (hrows q hq)
  obtain ⟨p, hp, rfl, _⟩ := parent_row hq hb
  exact h.parent?_eq_some_iff.mpr ⟨q, hq, p, hp, rfl, rfl, hb⟩

theorem Indexed.reaches_zero {i : Nat} (hi : i < t.size) :
    Relation.ReflTransGen (fun a b => t.parent? a = some b) i 0 := by
  obtain ⟨r, hr⟩ := h.exists_row hi
  obtain ⟨hm, rfl⟩ := h.row_at_iff.mp hr
  have hup := h.reaches_value (fun _ hr => hr) (mem_rows_iff.mp hm)
  rwa [show t.tree.value.id = 0 from h.root_id] at hup

theorem Indexed.wellLinked : t.WellLinked := by
  refine ⟨?_, fun i => h.parent?_eq_none_iff, ?_, ?_, fun i => h.reaches_zero⟩
  · exact List.length_pos_of_mem (Tree.value_mem_toList t.tree)
  · intro i p hp
    obtain ⟨_, _, s, hs, _, rfl, _⟩ := h.parent?_eq_some_iff.mp hp
    refine ⟨h.id_lt (mem_nodes_of_mem_rows hs), ?_⟩
    exact List.count_eq_one_of_mem (h.nodup_childIds _) (h.mem_childIds_iff_parent?.mpr hp)
  · intro i p hi
    have hp := h.mem_childIds_iff_parent?.mp hi
    obtain ⟨r, hr, _, _, rfl, _⟩ := h.parent?_eq_some_iff.mp hp
    exact ⟨h.id_lt (mem_nodes_of_mem_rows hr), hp⟩

end Links

theorem wellLinked_ofTree (t : Tree ClassNode) : (ofTree t).WellLinked :=
  (numbered_ofTree t).indexed.wellLinked

end ClassTree

end ClassSketch
