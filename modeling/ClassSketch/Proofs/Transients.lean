import ClassSketch.Proofs.Grafting
import ClassSketch.Sketch.File

/-! Nodes that are added to a tree for a while. Detaching drops them and nothing else, so a tree
comes back from the writing of its file as it was, apart from the marks of failures. -/

namespace ClassSketch

namespace Tree

theorem keepAll_eq {α : Type} (p : α → Bool) (ts : List (Tree α)) :
    keepAll p ts = (ts.filter fun t => p t.value).map (keep p) := by
  induction ts with
  | nil => rfl
  | cons t ts ih => by_cases h : p t.value = true <;> simp [keepAll, h, ih]

@[simp] theorem keep_node {α : Type} (p : α → Bool) (a : α) (ts : List (Tree α)) :
    (node a ts).keep p = node a ((ts.filter fun t => p t.value).map (keep p)) := by
  rw [keep, keepAll_eq]

theorem keep_modifyChildren {α : Type} {p q : α → Bool} {f : List (Tree α) → List (Tree α)}
    (hf : ∀ ts, (f ts).filter (fun t => p t.value) = ts.filter fun t => p t.value) (t : Tree α) :
    (t.modifyChildren q f).keep p = t.keep p := by
  induction t with
  | node a ts ih =>
    have hts : ((ts.map (modifyChildren q f)).filter fun t => p t.value).map (keep p) =
        (ts.filter fun t => p t.value).map (keep p) := by
      rw [List.filter_map, List.map_map]
      simp only [Function.comp_def, value_modifyChildren]
      exact List.map_congr_left fun t ht => ih t (List.mem_filter.mp ht).1
    by_cases hq : q a = true
    · rw [modifyChildren_node, if_pos hq, keep_node, keep_node, hf, hts]
    · rw [modifyChildren_node, if_neg hq, keep_node, keep_node, hts]

theorem keep_map {α β : Type} (p : β → Bool) (f : α → β) (t : Tree α) :
    (t.map f).keep p = (t.keep fun a => p (f a)).map f := by
  induction t with
  | node a ts ih =>
    simp only [map_node, keep_node, List.filter_map, List.map_map, Function.comp_def, value_map]
    exact congrArg _ (List.map_congr_left fun t ht => ih t (List.mem_filter.mp ht).1)

theorem map_map {α β γ : Type} (f : α → β) (h : β → γ) (t : Tree α) :
    (t.map f).map h = t.map fun a => h (f a) := by
  induction t with
  | node a ts ih =>
    simp only [map_node, List.map_map, Function.comp_def]
    exact congrArg _ (List.map_congr_left fun t ht => ih t ht)

theorem keep_of_forall {α : Type} {p : α → Bool} {t : Tree α} (h : ∀ a ∈ t.toList, p a = true) :
    t.keep p = t := by
  induction t with
  | node a ts ih =>
    have hts : ∀ t ∈ ts, ∀ b ∈ t.toList, p b = true := by
      intro t ht b hb
      exact h b (by simpa using .inr ⟨t, ht, hb⟩)
    have hall : (ts.filter fun t => p t.value) = ts :=
      List.filter_eq_self.mpr fun t ht => hts t ht _ (value_mem_toList t)
    rw [keep_node, hall]
    exact congrArg _ ((List.map_congr_left fun t ht => ih t ht (hts t ht)).trans (List.map_id _))

end Tree

theorem filter_insertByName {p : Tree ClassNode → Bool} {t : Tree ClassNode} (h : p t = false)
    (ss : List (Tree ClassNode)) : (insertByName t ss).filter p = ss.filter p := by
  induction ss with
  | nil => simp [insertByName, h]
  | cons s ss ih =>
    by_cases hlt : s.value.name < t.value.name
    · by_cases hs : p s = true <;> simp [insertByName, hlt, hs, ih]
    · simp [insertByName, hlt, h]

namespace ClassNode

def marked (ids : List Nat) (n : ClassNode) : ClassNode := { n with failed := ids.contains n.id }

@[simp] theorem marked_id (ids : List Nat) (n : ClassNode) : (n.marked ids).id = n.id := rfl

@[simp] theorem marked_name (ids : List Nat) (n : ClassNode) : (n.marked ids).name = n.name := rfl

end ClassNode

namespace ClassTree

/-- Nothing was added to the tree. -/
structure Bare (t : ClassTree) : Prop where
  built_eq : t.built = t.size
  id_lt : ∀ n ∈ t.nodes, n.id < t.built

theorem bare_ofTree (t : Tree ClassNode) : (ofTree t).Bare := by
  refine ⟨rfl, fun n hn => ?_⟩
  have hm := List.mem_map_of_mem (f := ClassNode.id) hn
  rw [ids_ofTree, List.mem_range] at hm
  rwa [show (ofTree t).built = (ofTree t).size from rfl, size_ofTree]

structure Extends (t s : ClassTree) : Prop where
  built_eq : s.built = t.built
  size_le : t.size ≤ s.size
  keep_eq : (s.tree.keep fun n => n.id < t.built) = t.tree.keep fun n => n.id < t.built

theorem Extends.refl (t : ClassTree) : t.Extends t := ⟨rfl, Nat.le_refl _, rfl⟩

theorem Extends.addTransient {t s : ClassTree} (h : t.Extends s) (ht : t.built = t.size)
    (parent : Nat) (n : ClassNode) : t.Extends (s.addTransient parent n).2 := by
  refine ⟨h.built_eq, ?_, ?_⟩
  · have hperm := Tree.toList_modifyChildren_insert (fun m => m.id == parent)
      { n with id := s.size } s.tree
    have hlen := hperm.length_eq
    rw [List.length_append, List.length_map] at hlen
    have hgrow : s.size ≤ (s.addTransient parent n).2.size :=
      Nat.le_trans (Nat.le_add_left _ _) (Nat.le_of_eq hlen.symm)
    exact Nat.le_trans h.size_le hgrow
  · rw [← h.keep_eq]
    apply Tree.keep_modifyChildren
    apply filter_insertByName
    have hle := h.size_le
    exact decide_eq_false (by simp only [Tree.leaf, Tree.value_node]; omega)

theorem Extends.discoverLambdas {σ : Type} {t : ClassTree} (ht : t.built = t.size)
    (r : Renderer σ) :
    t.Extends (t.discoverLambdas r) := by
  refine List.foldlRecOn (motive := t.Extends) _ _ (.refl t) fun s hs home _ => ?_
  exact List.foldlRecOn (motive := t.Extends) _ _ hs fun s hs site _ => hs.addTransient ht _ _

/-- The nodes of the second tree are those of the first one and nodes for call sites of its
classes. -/
def Sprouts (t s : ClassTree) : Prop :=
  ∃ added, s.nodes.Perm (added ++ t.nodes) ∧
    ∀ n ∈ added, ∃ home ∈ t.nodes, ∃ i site id,
      n = { ClassNode.ofLambda home.decl i site with id }

theorem Sprouts.addLambda {t s : ClassTree} (h : t.Sprouts s) {home : ClassNode}
    (hhome : home ∈ t.nodes) (i : Nat) (site : CallSite) :
    t.Sprouts (s.addLambda home i site).2 := by
  obtain ⟨added, hperm, hadded⟩ := h
  have hins := Tree.toList_modifyChildren_insert (fun m => m.id == home.id)
    { ClassNode.ofLambda home.decl i site with id := s.size } s.tree
  have hgrown := hins.trans (hperm.append_left _)
  rw [← List.append_assoc] at hgrown
  refine ⟨_, hgrown, fun n hn => ?_⟩
  rcases List.mem_append.mp hn with hn | hn
  · obtain ⟨_, _, rfl⟩ := List.mem_map.mp hn
    exact ⟨home, hhome, i, site, s.size, rfl⟩
  · exact hadded n hn

theorem sprouts_discoverLambdas {σ : Type} (t : ClassTree) (r : Renderer σ) :
    t.Sprouts (t.discoverLambdas r) := by
  refine List.foldlRecOn (motive := t.Sprouts) _ _ ⟨[], .refl _, by simp⟩ fun s hs home hhome => ?_
  exact List.foldlRecOn (motive := t.Sprouts) _ _ hs fun s hs site _ =>
    hs.addLambda (List.mem_filter.mp hhome).1 site.2 site.1

end ClassTree

namespace ClassTree.Bare

variable {t : ClassTree}

theorem built_clearFailures (h : t.Bare) : t.clearFailures.built = t.clearFailures.size := by
  rw [size, Tree.size, clearFailures, Tree.toList_map, List.length_map]
  exact h.built_eq

/-- The nodes that a tree was built with are those from before lambdas were added. -/
theorem keep_discoverLambdas {σ : Type} (h : t.Bare) (r : Renderer σ) :
    ((t.clearFailures.discoverLambdas r).tree.keep fun n => n.id < t.built) =
      t.clearFailures.tree := by
  have hall : ∀ n ∈ t.clearFailures.tree.toList, decide (n.id < t.built) = true := by
    intro n hn
    rw [clearFailures, Tree.toList_map] at hn
    obtain ⟨m, hm, rfl⟩ := List.mem_map.mp hn
    exact decide_eq_true (h.id_lt m hm)
  exact (Extends.discoverLambdas h.built_clearFailures r).keep_eq.trans (Tree.keep_of_forall hall)

end ClassTree.Bare

/-- Writing a file marks failures in the tree and changes nothing else in it. -/
theorem Workshop.tree_writeFile {σ : Type} (k : Kit σ) {t : ClassTree} (h : t.Bare)
    (shop : Workshop σ) :
    ∃ ids, (shop.writeFile k t).2.1.tree = t.tree.map (ClassNode.marked ids) ∧
      (shop.writeFile k t).2.1.built = t.built := by
  have hshape : ∃ ids, (shop.writeFile k t).2.1 =
      ((t.clearFailures.discoverLambdas k.renderer).markFailed ids).detach := ⟨_, rfl⟩
  obtain ⟨ids, hw⟩ := hshape
  have hext := ClassTree.Extends.discoverLambdas h.built_clearFailures k.renderer
  refine ⟨ids, ?_, hw ▸ hext.built_eq⟩
  have hid : ∀ n : ClassNode,
      (if ids.contains n.id then { n with failed := true } else n).id = n.id := by
    intro n
    split <;> rfl
  calc (shop.writeFile k t).2.1.tree
      = ((t.clearFailures.discoverLambdas k.renderer).tree.keep fun n => n.id < t.built).map
          fun n => if ids.contains n.id then { n with failed := true } else n := by
        rw [hw, ClassTree.detach, ClassTree.markFailed, Tree.keep_map]
        simp only [hid, hext.built_eq]
        rfl
    _ = t.tree.map (ClassNode.marked ids) := by
        rw [h.keep_discoverLambdas, ClassTree.clearFailures, Tree.map_map]
        congr 1
        funext n
        by_cases hc : n.id ∈ ids <;> simp [ClassNode.marked, hc]

end ClassSketch
