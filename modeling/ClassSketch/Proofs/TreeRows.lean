import ClassSketch.Tree
import Mathlib.Data.List.Perm.Basic
import Mathlib.Data.List.Nodup
import Mathlib.Logic.Relation

/-! The rows of a tree as a linked structure. In a tree without repeated values, parents and
children name each other, the root is the only node without a parent, and every node hangs from
the root. -/

namespace ClassSketch

namespace Tree

@[elab_as_elim, induction_eliminator]
theorem induct {α : Type} {motive : Tree α → Prop}
    (node : ∀ a ts, (∀ t ∈ ts, motive t) → motive (.node a ts)) (t : Tree α) : motive t :=
  @Tree.rec α motive (fun ts => ∀ t ∈ ts, motive t) node
    (fun _ h => absurd h List.not_mem_nil)
    (fun _ _ ht hts s hs => (List.mem_cons.mp hs).elim (fun h => h ▸ ht) (hts s)) t

theorem listToList_eq {α : Type} (ts : List (Tree α)) : listToList ts = ts.flatMap toList := by
  induction ts with
  | nil => rfl
  | cons t ts ih => simp [listToList, ih]

theorem mapAll_eq {α β : Type} (f : α → β) (ts : List (Tree α)) : mapAll f ts = ts.map (map f) := by
  induction ts with
  | nil => rfl
  | cons t ts ih => simp [mapAll, ih]

theorem modifyAll_eq {α : Type} (p : α → Bool) (f : List (Tree α) → List (Tree α))
    (ts : List (Tree α)) : modifyAll p f ts = ts.map (modifyChildren p f) := by
  induction ts with
  | nil => rfl
  | cons t ts ih => simp [modifyAll, ih]

theorem rowsAll_eq {α : Type} (parent : Option α) (depth : Nat) (ts : List (Tree α)) :
    rowsAll parent depth ts = ts.flatMap (rows parent depth) := by
  induction ts with
  | nil => rfl
  | cons t ts ih => simp [rowsAll, ih]

@[simp] theorem toList_node {α : Type} (a : α) (ts : List (Tree α)) :
    (node a ts).toList = a :: ts.flatMap toList := by
  rw [toList, listToList_eq]

theorem mem_toList_of_child {α : Type} {a x : α} {t : Tree α} {ts : List (Tree α)} (ht : t ∈ ts)
    (hx : x ∈ t.toList) : x ∈ (node a ts).toList := by
  rw [toList_node]
  exact List.mem_cons_of_mem _ (List.mem_flatMap_of_mem ht hx)

@[simp] theorem map_node {α β : Type} (f : α → β) (a : α) (ts : List (Tree α)) :
    (node a ts).map f = node (f a) (ts.map (map f)) := by
  rw [map, mapAll_eq]

@[simp] theorem modifyChildren_node {α : Type} (p : α → Bool) (f : List (Tree α) → List (Tree α))
    (a : α) (ts : List (Tree α)) :
    (node a ts).modifyChildren p f =
      node a (if p a then f (ts.map (modifyChildren p f)) else ts.map (modifyChildren p f)) := by
  rw [modifyChildren, modifyAll_eq]

@[simp] theorem rows_node {α : Type} (parent : Option α) (depth : Nat) (a : α)
    (ts : List (Tree α)) :
    (node a ts).rows parent depth =
      ⟨a, parent, ts.map value, depth⟩ :: ts.flatMap (rows (some a) (depth + 1)) := by
  rw [rows, rowsAll_eq]

@[simp] theorem value_node {α : Type} (a : α) (ts : List (Tree α)) : (node a ts).value = a := rfl

theorem value_mem_toList {α : Type} (t : Tree α) : t.value ∈ t.toList := by
  cases t
  simp

@[simp] theorem value_map {α β : Type} (f : α → β) (t : Tree α) : (t.map f).value = f t.value := by
  obtain ⟨a, ts⟩ := t
  simp

@[simp] theorem value_modifyChildren {α : Type} (p : α → Bool) (f : List (Tree α) → List (Tree α))
    (t : Tree α) : (t.modifyChildren p f).value = t.value := by
  obtain ⟨a, ts⟩ := t
  simp

@[simp] theorem toList_map {α β : Type} (f : α → β) (t : Tree α) :
    (t.map f).toList = t.toList.map f := by
  induction t with
  | node a ts ih =>
    simp only [map_node, toList_node, List.map_cons, List.flatMap_map, List.map_flatMap]
    exact congrArg (_ :: ·) (List.flatMap_congr fun t ht => ih t ht)

theorem rows_map_value {α : Type} (parent : Option α) (depth : Nat) (t : Tree α) :
    (t.rows parent depth).map (·.value) = t.toList := by
  induction t generalizing parent depth with
  | node a ts ih =>
    simp only [rows_node, toList_node, List.map_cons, List.map_flatMap]
    exact congrArg (_ :: ·) (List.flatMap_congr fun t ht => ih t ht _ _)

theorem row_value_mem {α : Type} {parent : Option α} {depth : Nat} {t : Tree α} {r : Row α}
    (h : r ∈ t.rows parent depth) : r.value ∈ t.toList := by
  rw [← rows_map_value parent depth t]
  exact List.mem_map_of_mem h

theorem exists_row {α : Type} (parent : Option α) (depth : Nat) {t : Tree α} {a : α}
    (h : a ∈ t.toList) : ∃ r ∈ t.rows parent depth, r.value = a := by
  rw [← rows_map_value parent depth t] at h
  exact List.mem_map.mp h

theorem row_unique {α : Type} {parent : Option α} {depth : Nat} {t : Tree α} (hnd : t.toList.Nodup)
    {r s : Row α} (hr : r ∈ t.rows parent depth) (hs : s ∈ t.rows parent depth)
    (h : r.value = s.value) : r = s := by
  rw [← rows_map_value parent depth t] at hnd
  exact List.inj_on_of_nodup_map hnd hr hs h

theorem mem_rows_node {α : Type} {parent : Option α} {depth : Nat} {a : α} {ts : List (Tree α)}
    {r : Row α} :
    r ∈ (node a ts).rows parent depth ↔
      r = ⟨a, parent, ts.map value, depth⟩ ∨ ∃ t ∈ ts, r ∈ t.rows (some a) (depth + 1) := by
  simp

/-- A row is the top one, or its parent has a row that counts it among the children. -/
theorem row_cases {α : Type} {parent : Option α} {depth : Nat} {t : Tree α} {r : Row α}
    (h : r ∈ t.rows parent depth) :
    (r.value = t.value ∧ r.parent = parent ∧ r.depth = depth) ∨
      ∃ s ∈ t.rows parent depth,
        r.parent = some s.value ∧ r.value ∈ s.children ∧ r.depth = s.depth + 1 := by
  induction t generalizing parent depth with
  | node a ts ih =>
    rcases mem_rows_node.mp h with rfl | ⟨t, ht, hr⟩
    · exact .inl ⟨rfl, rfl, rfl⟩
    · right
      rcases ih t ht hr with ⟨hv, hp, hd⟩ | ⟨s, hs, hh⟩
      · refine ⟨_, mem_rows_node.mpr (.inl rfl), hp, ?_, hd⟩
        exact List.mem_map.mpr ⟨t, ht, hv.symm⟩
      · exact ⟨s, mem_rows_node.mpr (.inr ⟨t, ht, hs⟩), hh⟩

theorem child_row {α : Type} {parent : Option α} {depth : Nat} {t : Tree α} {s : Row α}
    (hs : s ∈ t.rows parent depth) {c : α} (hc : c ∈ s.children) :
    ∃ r ∈ t.rows parent depth, r.value = c ∧ r.parent = some s.value := by
  induction t generalizing parent depth with
  | node a ts ih =>
    rcases mem_rows_node.mp hs with rfl | ⟨t, ht, hst⟩
    · obtain ⟨t, ht, rfl⟩ := List.mem_map.mp hc
      obtain ⟨b, us⟩ := t
      exact ⟨_, mem_rows_node.mpr (.inr ⟨_, ht, mem_rows_node.mpr (.inl rfl)⟩), rfl, rfl⟩
    · obtain ⟨r, hr, hh⟩ := ih t ht hst
      exact ⟨r, mem_rows_node.mpr (.inr ⟨t, ht, hr⟩), hh⟩

theorem children_sublist {α : Type} {parent : Option α} {depth : Nat} {t : Tree α} {s : Row α}
    (hs : s ∈ t.rows parent depth) : s.children.Sublist t.toList := by
  induction t generalizing parent depth with
  | node a ts ih =>
    rw [toList_node]
    rcases mem_rows_node.mp hs with rfl | ⟨t, ht, hst⟩
    · refine List.Sublist.cons _ ?_
      clear ih hs
      induction ts with
      | nil => exact List.Sublist.slnil
      | cons t ts ih =>
        obtain ⟨b, us⟩ := t
        simp only [List.map_cons, value_node, List.flatMap_cons, toList_node, List.cons_append]
        exact (ih.trans (List.sublist_append_right _ _)).cons_cons b
    · exact ((ih t ht hst).trans (List.sublist_flatten_of_mem (List.mem_map_of_mem ht))).cons a

theorem row_parent_eq_none_iff {α : Type} {depth : Nat} {t : Tree α} (hnd : t.toList.Nodup)
    {r : Row α} (hr : r ∈ t.rows none depth) : r.parent = none ↔ r.value = t.value := by
  constructor
  · intro h
    rcases row_cases hr with ⟨hv, _⟩ | ⟨s, _, hpar, _⟩
    · exact hv
    · simp [hpar] at h
  · intro h
    obtain ⟨a, ts⟩ := t
    have htop : (⟨a, none, ts.map value, depth⟩ : Row α) ∈ (node a ts).rows none depth :=
      mem_rows_node.mpr (.inl rfl)
    rw [row_unique hnd hr htop h]

theorem reaches_root {α : Type} {parent : Option α} {depth : Nat} {t : Tree α} {r : Row α}
    (hr : r ∈ t.rows parent depth) :
    Relation.ReflTransGen
      (fun a b => ∃ s ∈ t.rows parent depth, s.value = a ∧ s.parent = some b) r.value t.value := by
  induction t generalizing parent depth with
  | node a ts ih =>
    rcases mem_rows_node.mp hr with rfl | ⟨t, ht, hrt⟩
    · exact .refl
    · have hstep : ∃ s ∈ (node a ts).rows parent depth, s.value = t.value ∧ s.parent = some a := by
        obtain ⟨b, us⟩ := t
        exact ⟨_, mem_rows_node.mpr (.inr ⟨_, ht, mem_rows_node.mpr (.inl rfl)⟩), rfl, rfl⟩
      refine Relation.ReflTransGen.tail ((ih t ht hrt).lift id ?_) hstep
      rintro b c ⟨s, hs, hh⟩
      exact ⟨s, mem_rows_node.mpr (.inr ⟨t, ht, hs⟩), hh⟩

end Tree

end ClassSketch
