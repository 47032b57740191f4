import ClassSketch.Nesting.Node
import ClassSketch.Proofs.Tables
import ClassSketch.Proofs.TreeRows

/-! Numbering in preorder. The rows of a tree that was just built stand in the order of their
numbers, so a number is a place in the list of rows. -/

namespace ClassSketch

namespace Tree

def Row.map {α β : Type} (f : α → β) (r : Row α) : Row β :=
  ⟨f r.value, r.parent.map f, r.children.map f, r.depth⟩

theorem rows_map {α β : Type} (f : α → β) (parent : Option α) (depth : Nat) (t : Tree α) :
    (t.map f).rows (parent.map f) depth = (t.rows parent depth).map (Row.map f) := by
  induction t generalizing parent depth with
  | node a ts ih =>
    simp only [map_node, rows_node, List.map_cons, List.map_map, List.map_flatMap, List.flatMap_map]
    have hc : ts.map (value ∘ map f) = (ts.map value).map f := by simp [Function.comp_def]
    have hr : ts.flatMap (fun t => (t.map f).rows (some (f a)) (depth + 1)) =
        ts.flatMap fun t => (t.rows (some a) (depth + 1)).map (Row.map f) :=
      List.flatMap_congr fun t ht => ih t ht (some a) (depth + 1)
    rw [hr, hc]
    rfl

theorem number_node {α β : Type} (f : Nat → α → β) (n : Nat) (a : α) (ts : List (Tree α)) :
    (node a ts).number f n =
      (node (f n a) (numberAll f (n + 1) ts).1, (numberAll f (n + 1) ts).2) := rfl

theorem numberAll_cons {α β : Type} (f : Nat → α → β) (n : Nat) (t : Tree α) (ts : List (Tree α)) :
    numberAll f n (t :: ts) =
      ((t.number f n).1 :: (numberAll f (t.number f n).2 ts).1,
        (numberAll f (t.number f n).2 ts).2) := rfl

theorem toList_number {α β : Type} (f : Nat → α → β) (n : Nat) (t : Tree α) :
    (t.number f n).1.toList = (t.toList.zipIdx n).map (fun x => f x.2 x.1) ∧
      (t.number f n).2 = n + t.toList.length := by
  induction t generalizing n with
  | node a ts ih =>
    have hall : ∀ m, (numberAll f m ts).1.flatMap toList =
        ((ts.flatMap toList).zipIdx m).map (fun x => f x.2 x.1) ∧
        (numberAll f m ts).2 = m + (ts.flatMap toList).length := by
      induction ts with
      | nil => intro m; simp [numberAll]
      | cons t ts ihts =>
        intro m
        obtain ⟨ht, hn⟩ := ih t List.mem_cons_self m
        obtain ⟨hts, hm⟩ :=
          ihts (fun s hs => ih s (List.mem_cons_of_mem _ hs)) (m + t.toList.length)
        rw [numberAll_cons]
        simp only [List.flatMap_cons, ht, hn, hts, hm, List.zipIdx_append, List.map_append,
          List.length_append]
        exact ⟨trivial, by omega⟩
    obtain ⟨hl, hn⟩ := hall (n + 1)
    rw [number_node]
    simp only [toList_node, hl, hn, List.zipIdx_cons, List.map_cons, List.length_cons]
    exact ⟨trivial, by omega⟩

theorem map_number {α β γ : Type} {f : Nat → α → β} {h : β → γ} {k : α → γ}
    (hf : ∀ i a, h (f i a) = k a) (n : Nat) (t : Tree α) : (t.number f n).1.map h = t.map k := by
  induction t generalizing n with
  | node a ts ih =>
    have hall : ∀ m, (numberAll f m ts).1.map (map h) = ts.map (map k) := by
      induction ts with
      | nil => intro m; simp [numberAll]
      | cons t ts ihts =>
        intro m
        rw [numberAll_cons]
        simp only [List.map_cons, ih t List.mem_cons_self,
          ihts fun s hs => ih s (List.mem_cons_of_mem _ hs)]
    rw [number_node]
    simp only [map_node, hf, hall]

theorem map_value_subtree? {α : Type} (p : α → Bool) (t : Tree α) :
    (t.subtree? p).map value = t.toList.find? p := by
  induction t with
  | node a ts ih =>
    have hall : (firstSubtree? p ts).map value = (ts.flatMap toList).find? p := by
      induction ts with
      | nil => rfl
      | cons t ts ihts =>
        have ht := ih t List.mem_cons_self
        have hts := ihts fun s hs => ih s (List.mem_cons_of_mem _ hs)
        simp only [firstSubtree?, List.flatMap_cons, List.find?_append, ← ht, ← hts]
        cases t.subtree? p <;> simp
    by_cases hp : p a = true
    · simp [subtree?, hp]
    · simp [subtree?, hp, hall]

end Tree

def ClassNode.numbered (id : Nat) (n : ClassNode) : ClassNode := { n with id }

def ClassNode.unnumbered (n : ClassNode) : ClassNode := n.numbered 0

theorem ClassNode.unnumbered_numbered (id : Nat) (n : ClassNode) :
    (n.numbered id).unnumbered = n.unnumbered := rfl

@[simp] theorem ClassNode.unnumbered_name (n : ClassNode) : n.unnumbered.name = n.name := rfl

@[simp] theorem ClassNode.unnumbered_kind (n : ClassNode) : n.unnumbered.kind = n.kind := rfl

namespace ClassTree

theorem tree_ofTree (t : Tree ClassNode) :
    (ofTree t).tree = (t.number ClassNode.numbered 0).1 := rfl

theorem nodes_ofTree (t : Tree ClassNode) :
    (ofTree t).nodes = t.toList.zipIdx.map fun x => x.1.numbered x.2 := by
  rw [nodes, tree_ofTree, (Tree.toList_number ClassNode.numbered 0 t).1]

@[simp] theorem size_ofTree (t : Tree ClassNode) : (ofTree t).size = t.toList.length := by
  change (ofTree t).nodes.length = t.toList.length
  simp [nodes_ofTree]

theorem ids_ofTree (t : Tree ClassNode) :
    (ofTree t).nodes.map (·.id) = List.range t.toList.length := by
  rw [nodes_ofTree, List.map_map, List.range_eq_range']
  exact List.zipIdx_map_snd 0 t.toList

theorem names_ofTree (t : Tree ClassNode) :
    (ofTree t).nodes.map (·.name) = t.toList.map (·.name) := by
  rw [nodes_ofTree, List.map_map]
  have h := List.zipIdx_map_fst 0 t.toList
  calc t.toList.zipIdx.map (ClassNode.name ∘ fun x => x.1.numbered x.2)
      = (t.toList.zipIdx.map Prod.fst).map (·.name) := by rw [List.map_map]; rfl
    _ = t.toList.map (·.name) := by rw [h]

theorem unnumbered_tree_ofTree (t : Tree ClassNode) :
    (ofTree t).tree.map ClassNode.unnumbered = t.map ClassNode.unnumbered := by
  rw [tree_ofTree]
  exact Tree.map_number ClassNode.unnumbered_numbered 0 t

theorem root_name_ofTree (t : Tree ClassNode) : (ofTree t).root.name = t.value.name := by
  have h := congrArg (fun s => s.value.name) (unnumbered_tree_ofTree t)
  simp only [Tree.value_map, ClassNode.unnumbered_name] at h
  exact h

theorem ids_tree_rows_ofTree (t : Tree ClassNode) :
    ((ofTree t).tree.rows none 0).map (·.value.id) = List.range t.toList.length := by
  rw [← ids_ofTree, nodes, ← Tree.rows_map_value none 0 (ofTree t).tree, List.map_map]
  rfl

/-- The rows need no sorting. -/
theorem rows_ofTree (t : Tree ClassNode) : (ofTree t).rows = (ofTree t).tree.rows none 0 := by
  have h : (((ofTree t).tree.rows none 0).map (·.value.id)).Pairwise (· ≤ ·) := by
    rw [ids_tree_rows_ofTree]
    exact List.pairwise_le_range
  exact sortByKey_of_pairwise _ (List.pairwise_map.mp h)

theorem unnumbered_rows_ofTree (t : Tree ClassNode) :
    (ofTree t).rows.map (Tree.Row.map ClassNode.unnumbered) =
      (t.rows none 0).map (Tree.Row.map ClassNode.unnumbered) := by
  rw [rows_ofTree, ← Tree.rows_map, ← Tree.rows_map, unnumbered_tree_ofTree]

end ClassTree

end ClassSketch
