import ClassSketch.Proofs.Files
import ClassSketch.Proofs.LinkedTree

/-! Nodes by their numbers. As long as a file is written, the numbers of a tree's nodes are the
places in its list of rows. So a node is found under its number, and so are its children, and a node
that is added gets the next place. -/

namespace ClassSketch

section Options

variable {α β : Type}

theorem mapM_eq_some {f : α → Option β} {g : α → β} {xs : List α}
    (h : ∀ x ∈ xs, f x = some (g x)) : xs.mapM f = some (xs.map g) := by
  induction xs with
  | nil => rfl
  | cons x xs ih =>
    have hx := h x List.mem_cons_self
    have hxs := ih fun y hy => h y (List.mem_cons_of_mem _ hy)
    rw [List.mapM_cons, hx, hxs]
    rfl

end Options

theorem Tree.size_lt_of_mem {α : Type} (a : α) {ts : List (Tree α)} {t : Tree α} (h : t ∈ ts) :
    t.size < (Tree.node a ts).size := by
  have hsub := List.sublist_flatten_of_mem (List.mem_map_of_mem (f := Tree.toList) h)
  have hle := hsub.length_le
  rw [Tree.size, Tree.size, Tree.toList_node, List.length_cons]
  exact Nat.lt_succ_of_le hle

namespace ClassTree

section Family

/-- The node with a number and its children, of which each is looked up by its own number. -/
def family? (t : ClassTree) (id : Nat) : Option (ClassNode × List ClassNode) := do
  let row ← t.rows[id]?
  let children ← row.children.mapM fun c => (t.rows[c.id]?).map (·.value)
  return (row.value, children)

/-- The subtree lies in the tree. -/
def Holds (t : ClassTree) (s : Tree ClassNode) : Prop :=
  ∃ parent depth, ∀ r ∈ s.rows parent depth, r ∈ t.tree.rows none 0

variable {t : ClassTree} {s : Tree ClassNode}

theorem holds_tree (t : ClassTree) : t.Holds t.tree := ⟨none, 0, fun _ hr => hr⟩

theorem Holds.child {n : ClassNode} {ts : List (Tree ClassNode)} (h : t.Holds (.node n ts))
    (hs : s ∈ ts) : t.Holds s := by
  obtain ⟨parent, depth, hrows⟩ := h
  exact ⟨some n, depth + 1, fun r hr => hrows r (Tree.mem_rows_node.mpr (.inr ⟨s, hs, hr⟩))⟩

theorem Holds.row (hi : t.Indexed) (h : t.Holds s) :
    ∃ r, t.rows[s.value.id]? = some r ∧ r.value = s.value ∧
      r.children = s.children.map Tree.value := by
  obtain ⟨parent, depth, hrows⟩ := h
  obtain ⟨n, ts⟩ := s
  have htop := hrows ⟨n, parent, ts.map Tree.value, depth⟩ (Tree.mem_rows_node.mpr (.inl rfl))
  exact ⟨_, hi.row_iff.mpr ⟨htop, rfl⟩, rfl, rfl⟩

theorem Holds.family?_eq (hi : t.Indexed) (h : t.Holds s) :
    t.family? s.value.id = some (s.value, s.children.map Tree.value) := by
  obtain ⟨r, hr, hvalue, hchildren⟩ := h.row hi
  have hbelow : ∀ c ∈ r.children, (t.rows[c.id]?).map (·.value) = some c := by
    intro c hc
    rw [hchildren] at hc
    obtain ⟨n, ts⟩ := s
    obtain ⟨u, hu, rfl⟩ := List.mem_map.mp hc
    obtain ⟨row, hrow, hvalue, _⟩ := (h.child hu).row hi
    rw [hrow, Option.map_some, hvalue]
  have hall := mapM_eq_some hbelow
  rw [List.map_id', hchildren] at hall
  rw [family?, hr]
  simp only [Option.bind_eq_bind, Option.bind_some, hchildren, hall, hvalue]
  rfl

end Family

section Growth

variable {t : ClassTree}

theorem Indexed.filter_id (h : t.Indexed) {i : Nat} (hi : i < t.size) :
    (t.nodes.filter fun n => n.id == i).length = 1 := by
  have hmem : i ∈ t.nodes.map (·.id) := h.ids.mem_iff.mpr (List.mem_range.mpr hi)
  have hcount := List.count_eq_one_of_mem h.nodup hmem
  rw [List.count_eq_length_filter, List.filter_map, List.length_map] at hcount
  exact hcount

theorem Indexed.addTransient (h : t.Indexed) {parent : Nat} (hp : parent < t.size) (n : ClassNode) :
    (t.addTransient parent n).2.Indexed ∧
      ∀ m ∈ t.nodes, m ∈ (t.addTransient parent n).2.nodes := by
  have hone := h.filter_id hp
  have hperm := Tree.toList_modifyChildren_insert (fun m => m.id == parent)
    { n with id := t.size } t.tree
  obtain ⟨m, hm⟩ := List.length_eq_one_iff.mp hone
  rw [nodes] at hm
  rw [hm, List.map_singleton, List.singleton_append] at hperm
  have hnodes : (t.addTransient parent n).2.nodes.Perm ({ n with id := t.size } :: t.nodes) := hperm
  have hsize : (t.addTransient parent n).2.size = t.size + 1 := hnodes.length_eq
  refine ⟨⟨?_, ?_⟩, fun m hm => hnodes.mem_iff.mpr (List.mem_cons_of_mem _ hm)⟩
  · rw [hsize, List.range_succ]
    refine (hnodes.map _).trans ?_
    rw [List.map_cons]
    exact (h.ids.cons t.size).trans (List.perm_append_singleton _ _).symm
  · rw [root, ClassTree.addTransient, Tree.value_modifyChildren]
    exact h.root_id

theorem Numbered.map {f : ClassNode → ClassNode} (hf : ∀ n, (f n).id = n.id) {s : ClassTree}
    (h : t.Numbered) (hs : s.tree = t.tree.map f) : s.Numbered := by
  have hnodes : s.nodes = t.nodes.map f := by
    rw [nodes, hs, Tree.toList_map]
    rfl
  have hids : s.nodes.map (·.id) = t.nodes.map (·.id) := by
    rw [hnodes, List.map_map]
    exact List.map_congr_left fun n _ => hf n
  have hsize : s.size = t.size := by
    change s.nodes.length = t.nodes.length
    rw [hnodes, List.length_map]
  rw [Numbered, hids, hsize]
  exact h

end Growth

section Order

theorem orderWhere_eq (first : Bool) (ts : List (Tree ClassNode)) :
    orderWhere first ts =
      (ts.filter fun t => t.value.decl.holdsSwitchTables == first).flatMap orderFrom := by
  induction ts with
  | nil => rfl
  | cons t ts ih =>
    rw [orderWhere, ih, List.filter_cons]
    split <;> rfl

variable {t : ClassTree}

end Order

end ClassTree

end ClassSketch
