import ClassSketch.Proofs.Lookup
import ClassSketch.Proofs.Walks
import ClassSketch.Session

/-! The forest of a library is a partition of its own allowed classes: each is one node of one tree.
So every class has an owner and a node, and every class can be written at any time. -/

namespace ClassSketch

theorem mem_filter_not_contains {names placed : List String} {n : String} :
    (n ∈ names.filter fun n => !placed.contains n) ↔ n ∈ names ∧ n ∉ placed := by
  simp

namespace Forest

theorem ofLinks_numbered (classes : List ClassDecl) (links : List Link) :
    ∀ t ∈ (ofLinks classes links).trees, ∃ s, t = ClassTree.ofTree s := by
  intro t ht
  rw [ofLinks_eq] at ht
  obtain ⟨s, _, rfl⟩ := List.mem_map.mp ht
  exact ⟨s, rfl⟩

theorem names_ofLinks_perm (classes : List ClassDecl) (links : List Link) :
    (ofLinks classes links).names.Perm (((grown
      (classes.filter fun c => !(links.map (·.child.name)).contains c.name) links).flatMap
        Tree.toList).map (·.name)) := by
  rw [ofLinks_eq, names, List.flatMap_map, List.map_flatMap]
  refine ((perm_sortByKey _ _).flatMap_right _).trans (.of_eq ?_)
  exact List.flatMap_congr fun t _ => ClassTree.names_ofTree t

theorem names_ofLinks {classes : List ClassDecl} {links : List Link}
    (hnd : (classes.map (·.name)).Nodup)
    (hsub : ∀ n ∈ links.map (·.child.name), n ∈ classes.map (·.name))
    (hl : Linked ((classes.map (·.name)).filter fun n => !(links.map (·.child.name)).contains n)
      links) :
    (ofLinks classes links).names.Perm (classes.map (·.name)) := by
  have hroots := names_unplaced classes (links.map (·.child.name))
  have hperm := (names_ofLinks_perm classes links).trans
    (names_grown (hroots ▸ hnd.filter _) (hroots ▸ hl))
  rw [hroots] at hperm
  refine hperm.trans ?_
  rw [List.perm_ext_iff_of_nodup (List.Nodup.append hl.nodup_names (hnd.filter _) hl.disjoint) hnd]
  intro n
  rw [List.mem_append, mem_filter_not_contains]
  constructor
  · rintro (hn | ⟨hn, _⟩)
    · exact hsub n hn
    · exact hn
  · intro hn
    by_cases hp : n ∈ links.map (·.child.name)
    · exact .inl hp
    · exact .inr ⟨hn, hp⟩

end Forest

namespace Walk

theorem Sound.linked_unplaced {g : Ground} {t : ClaimTable} {w : Walk} (h : w.Sound g t) :
    Linked (g.names.filter fun n => !(w.links.map (·.child.name)).contains n) w.links := by
  refine h.linked.mono (fun n hn => ?_) fun n hn => ?_
  · have hnot : n ∉ w.links.map (·.child.name) := fun hp => h.linked.disjoint n hp hn
    exact mem_filter_not_contains.mpr ⟨(Ground.mem_unclaimed.mp hn).1, hnot⟩
  · exact fun hm => (mem_filter_not_contains.mp hm).2 hn

end Walk

namespace Forest

theorem build_eq_ofLinks (l : Library) (o : Options) (policy : Renaming) :
    ∃ w : Walk, w.Sound (.ofLibrary l o) (Census.take (.ofLibrary l o) policy).table ∧
      (build l o policy).1 = ofLinks (Ground.ofLibrary l o).classes w.links := by
  by_cases ho : o.nest = true
  · exact ⟨_, Walk.sound_nest _ _, by simp [build, ho]⟩
  · exact ⟨{}, Walk.sound_empty _ _, by simp [build, ho]⟩

theorem names_build (l : Library) (o : Options) (policy : Renaming) :
    (build l o policy).1.names.Perm (Ground.ofLibrary l o).names := by
  obtain ⟨w, hs, hf⟩ := build_eq_ofLinks l o policy
  rw [hf]
  exact names_ofLinks (Ground.ofLibrary l o).distinct hs.placed_mem hs.linked_unplaced

theorem build_numbered (l : Library) (o : Options) (policy : Renaming) :
    ∀ t ∈ (build l o policy).1.trees, ∃ s, t = ClassTree.ofTree s := by
  obtain ⟨w, _, hf⟩ := build_eq_ofLinks l o policy
  rw [hf]
  exact ofLinks_numbered _ _

theorem distinct_build (l : Library) (o : Options) (policy : Renaming) :
    (build l o policy).1.Distinct := by
  refine ⟨fun t ht => ?_, (names_build l o policy).nodup_iff.mpr (Ground.ofLibrary l o).distinct⟩
  obtain ⟨s, rfl⟩ := build_numbered l o policy t ht
  exact ClassTree.bare_ofTree s

theorem Distinct.names_update {f : Forest} (h : f.Distinct) {t t' : ClassTree} (ht : t ∈ f.trees)
    (hroot : t'.root.name = t.root.name) (hnames : t'.names = t.names) :
    (f.update t').names = f.names := by
  rw [names, update, List.flatMap_map]
  refine List.flatMap_congr fun s hs => ?_
  by_cases he : s.root.name = t'.root.name
  · rw [if_pos he, hnames]
    have hst := h.tree_unique hs ht s.root_name_mem (he.trans hroot ▸ t.root_name_mem)
    rw [hst]
  · rw [if_neg he]

theorem Distinct.update {f : Forest} (h : f.Distinct) {t t' : ClassTree} (ht : t ∈ f.trees)
    (hroot : t'.root.name = t.root.name) (hnames : t'.names = t.names) (hbare : t'.Bare) :
    (f.update t').Distinct := by
  refine ⟨fun s hs => ?_, h.names_update ht hroot hnames ▸ h.nodup⟩
  obtain ⟨u, hu, rfl⟩ := List.mem_map.mp hs
  by_cases he : u.root.name = t'.root.name
  · rw [if_pos he]
    exact hbare
  · rw [if_neg he]
    exact h.bare u hu

end Forest

theorem ClassTree.marked_alike {t t' : ClassTree} {ids : List Nat}
    (ht : t'.tree = t.tree.map (ClassNode.marked ids)) (hb : t'.built = t.built) :
    t'.root.name = t.root.name ∧ t'.names = t.names ∧ (t.Bare → t'.Bare) := by
  have hnodes : t'.nodes = t.nodes.map (ClassNode.marked ids) := by
    rw [nodes, ht, Tree.toList_map]
    rfl
  refine ⟨by simp [root, ht], by simp [names, hnodes], fun h => ⟨?_, ?_⟩⟩
  · have hsize : t'.size = t.size := by
      rw [size, size, Tree.size, Tree.size, ht, Tree.toList_map, List.length_map]
    rw [hb, hsize, h.built_eq]
  · intro n hn
    rw [hnodes] at hn
    obtain ⟨m, hm, rfl⟩ := List.mem_map.mp hn
    exact hb ▸ h.id_lt m hm

namespace Session

/-- The session after files were written, or failed to be, one after another. -/
def afterWrites {σ : Type} (s : Session σ) : List String → Session σ
  | [] => s
  | n :: ns =>
    match s.write n with
    | .ok (_, s) => s.afterWrites ns
    | .error _ => s.afterWrites ns

theorem write_of_not_mem {σ : Type} {s : Session σ} (h : s.forest.Distinct) {n : String}
    (hn : n ∉ s.forest.names) : s.write n = .error (.classNotFound n) := by
  have ho : s.forest.owner? n = none := by
    rw [← Option.not_isSome_iff_eq_none, h.owner?_isSome_iff]
    exact hn
  simp [write, ho]

/-- Any class of a tree can be asked for to write the file of the tree. -/
theorem write_of_mem_names {σ : Type} {s : Session σ} (h : s.forest.Distinct) {t : ClassTree}
    (ht : t ∈ s.forest.trees) {n : String} (hn : n ∈ t.names) :
    s.write n = .ok ((s.shop.writeFile s.kit t).1,
      { s with
        shop := (s.shop.writeFile s.kit t).2.2
        forest := s.forest.update (s.shop.writeFile s.kit t).2.1 }) := by
  have hroot : s.forest.owner? n = some t.root.name := h.owner?_eq_some_iff.mpr ⟨t, ht, rfl, hn⟩
  have htree : s.forest.tree? t.root.name = some t := h.tree?_eq_some_iff.mpr ⟨ht, rfl⟩
  simp only [write, hroot, htree]

theorem write_of_mem {σ : Type} {s : Session σ} (h : s.forest.Distinct) {n : String}
    (hn : n ∈ s.forest.names) :
    ∃ file s', s.write n = .ok (file, s') ∧ s'.forest.Distinct ∧
      s'.forest.names = s.forest.names := by
  obtain ⟨t, ht, hnt⟩ := Forest.mem_names.mp hn
  obtain ⟨ids, hmarked, hbuilt⟩ := Workshop.tree_writeFile s.kit (h.bare t ht) s.shop
  obtain ⟨hr', hn', hb'⟩ := ClassTree.marked_alike hmarked hbuilt
  have hw := write_of_mem_names h ht hnt
  generalize s.shop.writeFile s.kit t = out at hw hr' hn' hb'
  exact ⟨out.1, _, hw, h.update ht hr' hn' (hb' (h.bare t ht)), h.names_update ht hr' hn'⟩

theorem afterWrites_keeps {σ : Type} (ns : List String) {s : Session σ} (h : s.forest.Distinct) :
    (s.afterWrites ns).forest.Distinct ∧ (s.afterWrites ns).forest.names = s.forest.names := by
  induction ns generalizing s with
  | nil => exact ⟨h, rfl⟩
  | cons n ns ih =>
    by_cases hn : n ∈ s.forest.names
    · obtain ⟨file, s', hw, hd, hnames⟩ := write_of_mem h hn
      obtain ⟨hd', hnames'⟩ := ih hd
      simp only [afterWrites, hw]
      exact ⟨hd', hnames'.trans hnames⟩
    · simp only [afterWrites, write_of_not_mem h hn]
      exact ih h

theorem forest_start {σ : Type} (k : Kit σ) (l : Library) (memory : σ) (policy : Renaming) :
    (start k l memory policy).forest = (Forest.build l k.options policy).1 := rfl

end Session

namespace Forest

def ownNames (l : Library) (o : Options) : List String :=
  (l.ownClasses.filter fun c => o.allows c.name).map (·.name)

/-- Every name is that of one node of one tree, every tree is well linked, and lookups find just
these names, each in its tree and at its node. -/
structure Partitions (f : Forest) (names : List String) : Prop where
  nodup : f.names.Nodup
  mem_iff : ∀ n, n ∈ f.names ↔ n ∈ names
  linked : ∀ t ∈ f.trees, t.WellLinked
  owner_iff : ∀ n r, f.owner? n = some r ↔ ∃ t ∈ f.trees, t.root.name = r ∧ n ∈ t.names
  locate_iff : ∀ n t id, f.locate? n = some (t, id) ↔
    t ∈ f.trees ∧ ∃ m, t.node? id = some m ∧ m.name = n
  owned_iff : ∀ n, (f.owner? n).isSome = true ↔ n ∈ names
  located_iff : ∀ n, (f.locate? n).isSome = true ↔ n ∈ names

/-- For every library, renaming and options, the forest partitions the own allowed classes. Whatever
was written before, a file is written for just these classes; for all other names the class is
reported as not found. -/
theorem build_partitions {σ : Type} (k : Kit σ) (l : Library) (memory : σ) (policy : Renaming) :
    (build l k.options policy).1.Partitions (ownNames l k.options) ∧
      ∀ written n,
        let s := (Session.start k l memory policy).afterWrites written
        (n ∈ ownNames l k.options → ∃ file s', s.write n = .ok (file, s')) ∧
          (n ∉ ownNames l k.options → s.write n = .error (.classNotFound n)) := by
  have hd := distinct_build l k.options policy
  have hnum := build_numbered l k.options policy
  have hmem : ∀ n, n ∈ (build l k.options policy).1.names ↔ n ∈ ownNames l k.options :=
    fun n => (names_build l k.options policy).mem_iff
  refine ⟨⟨hd.nodup, hmem, ?_, ?_, ?_, ?_, ?_⟩, ?_⟩
  · intro t ht
    obtain ⟨s, rfl⟩ := hnum t ht
    exact ClassTree.wellLinked_ofTree s
  · exact fun n r => hd.owner?_eq_some_iff
  · exact fun n t id => hd.locate?_eq_some_iff hnum
  · exact fun n => hd.owner?_isSome_iff.trans (hmem n)
  · exact fun n => (hd.locate?_isSome_iff hnum).trans (hmem n)
  · intro written n
    have hd' := Session.forest_start k l memory policy ▸ hd
    obtain ⟨hdw, hnames⟩ := Session.afterWrites_keeps written hd'
    rw [← hmem n, ← Session.forest_start k l memory policy, ← hnames]
    refine ⟨fun hn => ?_, Session.write_of_not_mem hdw⟩
    obtain ⟨file, s', hw, _⟩ := Session.write_of_mem hdw hn
    exact ⟨file, s', hw⟩

end Forest

end ClassSketch
