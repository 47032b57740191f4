import ClassSketch.Nesting.Forest
import ClassSketch.Proofs.LinkedTree
import ClassSketch.Proofs.Transients
import Mathlib.Data.List.Pairwise

/-! Classes are looked up by name. In a forest in which no name is repeated a class has one owner
and one node, and a lookup finds them. -/

namespace ClassSketch

theorem lookup_eq_some_iff_mem {β : Type} {entries : List (String × β)}
    (hnd : (entries.map Prod.fst).Nodup) {k : String} {b : β} :
    entries.lookup k = some b ↔ (k, b) ∈ entries := by
  induction entries with
  | nil => simp
  | cons e entries ih =>
    obtain ⟨k', b'⟩ := e
    rw [List.map_cons, List.nodup_cons] at hnd
    by_cases hk : k = k'
    · subst hk
      have hout : (k, b) ∉ entries := fun hm => hnd.1 (List.mem_map.mpr ⟨_, hm, rfl⟩)
      simp [hout, eq_comm]
    · rw [List.lookup_cons, beq_eq_false_iff_ne.mpr hk]
      simp [ih hnd.2, hk]

namespace ClassTree

def names (t : ClassTree) : List String := t.nodes.map (·.name)

theorem root_name_mem (t : ClassTree) : t.root.name ∈ t.names :=
  List.mem_map_of_mem (Tree.value_mem_toList t.tree)

theorem node?_eq_some_iff {t : Tree ClassNode} {id : Nat} {n : ClassNode} :
    (ofTree t).node? id = some n ↔ n ∈ (ofTree t).nodes ∧ n.id = id := by
  rw [node?, subtree?, Tree.map_value_subtree?]
  constructor
  · intro h
    exact ⟨List.mem_of_find?_eq_some h, by simpa using List.find?_some h⟩
  · rintro ⟨hm, rfl⟩
    cases h : (ofTree t).tree.toList.find? fun m => m.id == n.id with
    | none => simpa using List.find?_eq_none.mp h n hm
    | some m =>
      have hid : m.id = n.id := by simpa using List.find?_some h
      rw [(numbered_ofTree t).indexed.node_ext (List.mem_of_find?_eq_some h) hm hid]

theorem find?_eq_some_iff {t : Tree ClassNode} (hnd : (ofTree t).names.Nodup) {name : String}
    {id : Nat} :
    (ofTree t).find? name = some id ↔ ∃ n, (ofTree t).node? id = some n ∧ n.name = name := by
  have hindex : (ofTree t).index = (ofTree t).nodes.map fun n => (n.name, n.id) := rfl
  have hkeys : ((ofTree t).index.map Prod.fst).Nodup := by
    rw [hindex, List.map_map]
    exact hnd
  rw [find?, lookup_eq_some_iff_mem hkeys, hindex, List.mem_map]
  simp only [node?_eq_some_iff, Prod.mk.injEq]
  exact exists_congr fun n => ⟨fun h => ⟨⟨h.1, h.2.2⟩, h.2.1⟩, fun h => ⟨h.1.1, h.2, h.1.2⟩⟩

end ClassTree

namespace Forest

def names (f : Forest) : List String := f.trees.flatMap ClassTree.names

theorem mem_names {f : Forest} {n : String} :
    n ∈ f.names ↔ ∃ t ∈ f.trees, n ∈ t.names := by
  simp only [names, List.mem_flatMap]

/-- Trees to which nothing was added, without repeated names. -/
structure Distinct (f : Forest) : Prop where
  bare : ∀ t ∈ f.trees, t.Bare
  nodup : f.names.Nodup

theorem Distinct.tree_unique {f : Forest} (h : f.Distinct) {s t : ClassTree} (hs : s ∈ f.trees)
    (ht : t ∈ f.trees) {n : String} (hns : n ∈ s.names)
    (hnt : n ∈ t.names) : s = t := by
  by_contra hne
  have hpair := (List.nodup_flatMap.mp h.nodup).2
  have : Std.Symm (Function.onFun List.Disjoint ClassTree.names) :=
    ⟨fun _ _ hd _ hb ha => hd ha hb⟩
  exact hpair.forall hs ht hne hns hnt

theorem Distinct.nodup_tree {f : Forest} (h : f.Distinct) {t : ClassTree} (ht : t ∈ f.trees) :
    t.names.Nodup :=
  (List.nodup_flatMap.mp h.nodup).1 t ht

theorem Distinct.ownerTree?_eq_some_iff {f : Forest} (h : f.Distinct) {n : String} {t : ClassTree} :
    f.ownerTree? n = some t ↔ t ∈ f.trees ∧ n ∈ t.names := by
  have hany : ∀ s ∈ f.trees, (s.nodes.any fun m => decide (m.id < s.built) && m.name == n) = true ↔
      n ∈ s.names := by
    intro s hs
    simp only [ClassTree.names, List.any_eq_true, Bool.and_eq_true, decide_eq_true_eq, beq_iff_eq,
      List.mem_map]
    exact exists_congr fun m => ⟨fun hh => ⟨hh.1, hh.2.2⟩,
      fun hh => ⟨hh.1, (h.bare s hs).id_lt m hh.1, hh.2⟩⟩
  constructor
  · intro hf
    have ht := List.mem_of_find?_eq_some hf
    have hn := List.find?_some hf
    exact ⟨ht, (hany t ht).mp hn⟩
  · rintro ⟨ht, hn⟩
    cases hf : f.ownerTree? n with
    | none => exact absurd ((hany t ht).mpr hn) (List.find?_eq_none.mp hf t ht)
    | some s =>
      have hs := List.mem_of_find?_eq_some hf
      have hns := List.find?_some hf
      rw [h.tree_unique hs ht ((hany s hs).mp hns) hn]

theorem Distinct.owner?_eq_some_iff {f : Forest} (h : f.Distinct) {n r : String} :
    f.owner? n = some r ↔ ∃ t ∈ f.trees, t.root.name = r ∧ n ∈ t.names := by
  simp only [owner?, Option.map_eq_some_iff, h.ownerTree?_eq_some_iff]
  constructor
  · rintro ⟨t, ⟨ht, hn⟩, hr⟩
    exact ⟨t, ht, hr, hn⟩
  · rintro ⟨t, ht, hr, hn⟩
    exact ⟨t, ⟨ht, hn⟩, hr⟩

theorem Distinct.owner?_isSome_iff {f : Forest} (h : f.Distinct) {n : String} :
    (f.owner? n).isSome = true ↔ n ∈ f.names := by
  rw [Option.isSome_iff_exists, mem_names]
  simp only [h.owner?_eq_some_iff]
  constructor
  · rintro ⟨_, t, ht, _, hn⟩
    exact ⟨t, ht, hn⟩
  · rintro ⟨t, ht, hn⟩
    exact ⟨_, t, ht, rfl, hn⟩

theorem Distinct.tree?_eq_some_iff {f : Forest} (h : f.Distinct) {r : String} {t : ClassTree} :
    f.tree? r = some t ↔ t ∈ f.trees ∧ t.root.name = r := by
  constructor
  · intro hf
    exact ⟨List.mem_of_find?_eq_some hf, by simpa using List.find?_some hf⟩
  · rintro ⟨ht, rfl⟩
    cases hf : f.tree? t.root.name with
    | none => simpa using List.find?_eq_none.mp hf t ht
    | some s =>
      have hr : s.root.name = t.root.name := by simpa using List.find?_some hf
      rw [h.tree_unique (List.mem_of_find?_eq_some hf) ht s.root_name_mem
        (hr ▸ t.root_name_mem)]

theorem Distinct.locate?_eq_some_iff {f : Forest} (h : f.Distinct)
    (hnum : ∀ t ∈ f.trees, ∃ s, t = ClassTree.ofTree s) {n : String} {t : ClassTree} {id : Nat} :
    f.locate? n = some (t, id) ↔ t ∈ f.trees ∧ ∃ m, t.node? id = some m ∧ m.name = n := by
  have hloc : f.locate? n = some (t, id) ↔ f.ownerTree? n = some t ∧ t.find? n = some id := by
    cases ho : f.ownerTree? n with
    | none => simp [locate?, ho]
    | some s =>
      cases hfind : s.find? n with
      | none => simp [locate?, ho, hfind]; rintro rfl; simp [hfind]
      | some i => simp [locate?, ho, hfind]; rintro rfl; simp [hfind]
  rw [hloc, h.ownerTree?_eq_some_iff]
  constructor
  · rintro ⟨⟨ht, _⟩, hf⟩
    obtain ⟨u, rfl⟩ := hnum t ht
    exact ⟨ht, (ClassTree.find?_eq_some_iff (h.nodup_tree ht)).mp hf⟩
  · rintro ⟨ht, hm⟩
    obtain ⟨u, rfl⟩ := hnum t ht
    refine ⟨⟨ht, ?_⟩, (ClassTree.find?_eq_some_iff (h.nodup_tree ht)).mpr hm⟩
    obtain ⟨m, hm, rfl⟩ := hm
    exact List.mem_map_of_mem (ClassTree.node?_eq_some_iff.mp hm).1

theorem Distinct.locate?_isSome_iff {f : Forest} (h : f.Distinct)
    (hnum : ∀ t ∈ f.trees, ∃ s, t = ClassTree.ofTree s) {n : String} :
    (f.locate? n).isSome = true ↔ n ∈ f.names := by
  rw [Option.isSome_iff_exists, mem_names]
  simp only [Prod.exists, h.locate?_eq_some_iff hnum]
  constructor
  · rintro ⟨t, id, ht, m, hm, rfl⟩
    obtain ⟨s, rfl⟩ := hnum t ht
    exact ⟨_, ht, List.mem_map_of_mem (ClassTree.node?_eq_some_iff.mp hm).1⟩
  · rintro ⟨t, ht, hn⟩
    obtain ⟨s, rfl⟩ := hnum t ht
    obtain ⟨m, hm, rfl⟩ := List.mem_map.mp hn
    exact ⟨_, m.id, ht, m, ClassTree.node?_eq_some_iff.mpr ⟨hm, rfl⟩, rfl⟩

end Forest

end ClassSketch
