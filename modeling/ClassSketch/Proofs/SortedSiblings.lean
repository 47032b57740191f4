import ClassSketch.Proofs.NodeNumbers
import ClassSketch.Proofs.Partition

/-! Children in the order of their names. In every tree of a built forest they are sorted and stay so
when a node is put among them, which is why its place can be found by halving. -/

namespace ClassSketch

section Search

variable {α : Type}

/-- The place where a test stops to hold, found by halving what lies between two places. -/
def searchPlace (p : α → Bool) (xs : List α) (low high : Nat) : Nat :=
  if low < high then
    let middle := (low + high) / 2
    if (xs[middle]?).any p then searchPlace p xs (middle + 1) high else searchPlace p xs low middle
  else low
termination_by high - low

theorem any_getElem?_of_partition {p : α → Bool} {before after : List α}
    (hb : ∀ a ∈ before, p a = true) (ha : ∀ a ∈ after, p a = false) (i : Nat) :
    ((before ++ after)[i]?).any p = decide (i < before.length) := by
  by_cases hi : i < before.length
  · rw [List.getElem?_append_left hi, List.getElem?_eq_getElem hi]
    simpa [hi] using hb _ (List.getElem_mem hi)
  · rw [List.getElem?_append_right (by omega)]
    cases h : after[i - before.length]? with
    | none => simp [hi]
    | some a => simpa [hi] using ha a (List.mem_of_getElem? h)

theorem searchPlace_append {p : α → Bool} {before after : List α} (hb : ∀ a ∈ before, p a = true)
    (ha : ∀ a ∈ after, p a = false) (low high : Nat) (hlow : low ≤ before.length)
    (hhigh : before.length ≤ high) : searchPlace p (before ++ after) low high = before.length := by
  fun_induction searchPlace p (before ++ after) low high with
  | case1 low high hlt middle hany ih =>
    -- the place stays between the two ends, whichever half is left
    rw [any_getElem?_of_partition hb ha, decide_eq_true_eq] at hany
    exact ih (by omega) hhigh
  | case2 low high hlt middle hany ih =>
    rw [any_getElem?_of_partition hb ha, decide_eq_true_eq] at hany
    exact ih hlow (by omega)
  | case3 low high hlt => omega

theorem insertIdx_append (before after : List α) (x : α) :
    (before ++ after).insertIdx before.length x = before ++ x :: after := by
  induction before with
  | nil => rfl
  | cons b before ih => simp [ih]

end Search

section Siblings

def NamesSorted (cs : List ClassNode) : Prop := (cs.map (·.name)).Pairwise (· ≤ ·)

/-- A node put before the first one whose name is not smaller. -/
def insertNode (x : ClassNode) (cs : List ClassNode) : List ClassNode :=
  cs.takeWhile (fun c => c.name < x.name) ++ x :: cs.dropWhile fun c => c.name < x.name

theorem map_value_insertByName (t : Tree ClassNode) (ss : List (Tree ClassNode)) :
    (insertByName t ss).map Tree.value = insertNode t.value (ss.map Tree.value) := by
  induction ss with
  | nil => rfl
  | cons s ss ih =>
    by_cases h : s.value.name < t.value.name
    · rw [insertByName, if_pos h, List.map_cons, ih, insertNode, insertNode, List.map_cons,
        List.takeWhile_cons_of_pos (by simpa using h), List.dropWhile_cons_of_pos (by simpa using h)]
      rfl
    · rw [insertByName, if_neg h, insertNode, List.map_cons, List.map_cons,
        List.takeWhile_cons_of_neg (by simpa using h), List.dropWhile_cons_of_neg (by simpa using h)]
      rfl

variable {x : ClassNode} {cs : List ClassNode}

theorem NamesSorted.le_of_mem_dropWhile (h : NamesSorted cs) :
    ∀ c ∈ cs.dropWhile (fun c => c.name < x.name), x.name ≤ c.name := by
  induction cs with
  | nil => simp
  | cons c cs ih =>
    rw [NamesSorted, List.map_cons, List.pairwise_cons] at h
    by_cases hlt : c.name < x.name
    · rw [List.dropWhile_cons_of_pos (by simpa using hlt)]
      exact ih h.2
    · rw [List.dropWhile_cons_of_neg (by simpa using hlt)]
      have hc : x.name ≤ c.name := String.not_lt.mp hlt
      intro d hd
      rcases List.mem_cons.mp hd with rfl | hd
      · exact hc
      · exact String.le_trans hc (h.1 _ (List.mem_map_of_mem hd))

theorem lt_of_mem_takeWhile :
    ∀ c ∈ cs.takeWhile (fun c => c.name < x.name), c.name < x.name := by
  intro c hc
  simpa using List.all_eq_true.mp List.all_takeWhile c hc

theorem NamesSorted.insertNode (h : NamesSorted cs) (x : ClassNode) :
    NamesSorted (insertNode x cs) := by
  have hsplit := h
  rw [← List.takeWhile_append_dropWhile (p := fun c : ClassNode => c.name < x.name) (l := cs)] at hsplit
  rw [NamesSorted, List.map_append, List.pairwise_append] at hsplit
  obtain ⟨hbefore, hafter, hacross⟩ := hsplit
  rw [NamesSorted, ClassSketch.insertNode, List.map_append, List.map_cons, List.pairwise_append,
    List.pairwise_cons]
  refine ⟨hbefore, ⟨?_, hafter⟩, ?_⟩
  · rw [List.forall_mem_map]
    exact h.le_of_mem_dropWhile
  · rw [List.forall_mem_map]
    intro c hc
    have hlt : c.name < x.name := lt_of_mem_takeWhile c hc
    rw [List.forall_mem_cons]
    exact ⟨String.not_lt.mp (String.lt_asymm hlt), hacross _ (List.mem_map_of_mem hc)⟩

/-- Among sorted siblings the place can be found by halving. -/
theorem NamesSorted.insertNode_eq (h : NamesSorted cs) (x : ClassNode) :
    ClassSketch.insertNode x cs =
      cs.insertIdx (searchPlace (fun c => c.name < x.name) cs 0 cs.length) x := by
  have hb : ∀ c ∈ cs.takeWhile (fun c => c.name < x.name), decide (c.name < x.name) = true := by
    intro c hc
    exact decide_eq_true (lt_of_mem_takeWhile c hc)
  have ha : ∀ c ∈ cs.dropWhile (fun c => c.name < x.name), decide (c.name < x.name) = false := by
    intro c hc
    exact decide_eq_false (String.not_lt.mpr (h.le_of_mem_dropWhile c hc))
  have hcs := List.takeWhile_append_dropWhile (p := fun c : ClassNode => c.name < x.name) (l := cs)
  generalize hbefore : cs.takeWhile (fun c => c.name < x.name) = before at hb hcs
  generalize hafter : cs.dropWhile (fun c => c.name < x.name) = after at ha hcs
  rw [ClassSketch.insertNode, hbefore, hafter, ← hcs,
    searchPlace_append hb ha 0 _ (Nat.zero_le _) (by rw [List.length_append]; omega),
    insertIdx_append]

end Siblings

section Insertion

/-- The row with one child more. -/
def Tree.Row.gain (r : Tree.Row ClassNode) (x : ClassNode) : Tree.Row ClassNode :=
  { r with children := insertNode x r.children }

/-- The row of that child. -/
def Tree.Row.below (r : Tree.Row ClassNode) (x : ClassNode) : Tree.Row ClassNode :=
  ⟨x, some r.value, [], r.depth + 1⟩

theorem Tree.rows_modifyChildren_insert (p : ClassNode → Bool) (x : ClassNode) (t : Tree ClassNode)
    (parent : Option ClassNode) (depth : Nat) :
    ((t.modifyChildren p (insertByName (.leaf x))).rows parent depth).Perm
      (((t.rows parent depth).filter fun r => p r.value).map (·.below x) ++
        (t.rows parent depth).map fun r => if p r.value then r.gain x else r) := by
  induction t generalizing parent depth with
  | node a ts ih =>
    let grow : Tree ClassNode → Tree ClassNode := modifyChildren p (insertByName (.leaf x))
    have hvalues : (ts.map grow).map value = ts.map value := by
      rw [List.map_map]
      exact List.map_congr_left fun t _ => value_modifyChildren _ _ t
    have hts : ((ts.map grow).flatMap (rows (some a) (depth + 1))).Perm
        (((ts.flatMap (rows (some a) (depth + 1))).filter fun r => p r.value).map (·.below x) ++
          (ts.flatMap (rows (some a) (depth + 1))).map fun r => if p r.value then r.gain x else r) := by
      rw [List.flatMap_map, List.filter_flatMap, List.map_flatMap, List.map_flatMap]
      exact (List.Perm.flatMap_left ts fun t ht => ih t ht (some a) (depth + 1)).trans
        (List.flatMap_append_perm ts _ _).symm
    rw [modifyChildren_node, rows_node, rows_node, List.map_cons]
    by_cases hp : p a = true
    · have hleaf : (leaf x).rows (some a) (depth + 1) = [⟨x, some a, [], depth + 1⟩] := by
        simp [leaf]
      have hins := ((perm_insertByName (.leaf x) (ts.map grow)).flatMap_right
        (rows (some a) (depth + 1))).trans (hts.append_left _)
      rw [hleaf, List.singleton_append] at hins
      have hchildren : (insertByName (.leaf x) (ts.map grow)).map value =
          insertNode x (ts.map value) := by
        rw [map_value_insertByName, hvalues]
        rfl
      simp only [List.filter_cons, hp, if_true, List.map_cons]
      rw [hchildren]
      exact (hins.cons _).trans (@List.perm_middle _ _ (_ :: _) _).symm
    · simp only [List.filter_cons, hp, Bool.false_eq_true, if_false]
      rw [hvalues]
      exact (hts.cons _).trans List.perm_middle.symm

theorem Tree.sorted_modifyChildren_insert {p : ClassNode → Bool} {x : ClassNode}
    {t : Tree ClassNode} (h : ∀ r ∈ t.rows none 0, NamesSorted r.children) :
    ∀ r ∈ (t.modifyChildren p (insertByName (.leaf x))).rows none 0, NamesSorted r.children := by
  intro r hr
  rw [(rows_modifyChildren_insert p x t none 0).mem_iff, List.mem_append] at hr
  rcases hr with hr | hr
  · obtain ⟨q, _, rfl⟩ := List.mem_map.mp hr
    exact List.Pairwise.nil
  · obtain ⟨q, hq, rfl⟩ := List.mem_map.mp hr
    by_cases hp : p q.value = true
    · rw [if_pos hp]
      exact (h q hq).insertNode x
    · rw [if_neg hp]
      exact h q hq

end Insertion

namespace ClassTree

def ChildrenSorted (t : ClassTree) : Prop := ∀ r ∈ t.rows, NamesSorted r.children

theorem childrenSorted_ofTree {t : Tree ClassNode}
    (h : ∀ r ∈ t.rows none 0, NamesSorted r.children) : (ofTree t).ChildrenSorted := by
  intro r hr
  have hm := List.mem_map_of_mem (f := Tree.Row.map ClassNode.unnumbered) hr
  rw [unnumbered_rows_ofTree] at hm
  obtain ⟨q, hq, he⟩ := List.mem_map.mp hm
  have hchildren : q.children.map ClassNode.unnumbered = r.children.map ClassNode.unnumbered :=
    congrArg Tree.Row.children he
  have hnames : q.children.map (·.name) = r.children.map (·.name) := by
    simpa [Function.comp_def] using congrArg (List.map ClassNode.name) hchildren
  rw [NamesSorted, ← hnames]
  exact h q hq

end ClassTree

theorem Forest.sorted_grown (roots : List ClassDecl) (links : List Link) :
    ∀ t ∈ grown roots links, ∀ r ∈ t.rows none 0, NamesSorted r.children := by
  induction links with
  | nil =>
    intro t ht r hr
    obtain ⟨c, _, rfl⟩ := List.mem_map.mp ht
    obtain rfl : r = ⟨.ofDecl c, none, [], 0⟩ := by simpa [Tree.leaf] using hr
    exact List.Pairwise.nil
  | cons link links ih =>
    intro t ht
    rw [grown_cons, graft] at ht
    obtain ⟨s, hs, rfl⟩ := List.mem_map.mp ht
    exact Tree.sorted_modifyChildren_insert (ih s hs)

theorem Forest.childrenSorted_build (l : Library) (o : Options) (policy : Renaming) :
    ∀ t ∈ (build l o policy).1.trees, t.ChildrenSorted := by
  obtain ⟨w, _, hf⟩ := build_eq_ofLinks l o policy
  intro t ht
  rw [hf, ofLinks_eq] at ht
  obtain ⟨s, hs, rfl⟩ := List.mem_map.mp ht
  have hgrown := (perm_sortByKey _ _).mem_iff.mp hs
  exact ClassTree.childrenSorted_ofTree (sorted_grown _ _ s hgrown)

end ClassSketch
