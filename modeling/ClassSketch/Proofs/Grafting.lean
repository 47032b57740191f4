import ClassSketch.Nesting.Forest
import ClassSketch.Proofs.Numbering

/-! From links to trees. Links whose parents are there when they are made lose no class and double
none, and each class lies in its tree where the links put it. -/

namespace ClassSketch

theorem mem_insertByName {s t : Tree ClassNode} {ss : List (Tree ClassNode)} :
    s ∈ insertByName t ss ↔ s = t ∨ s ∈ ss := by
  induction ss with
  | nil => simp [insertByName]
  | cons u ss ih =>
    by_cases h : u.value.name < t.value.name
    · simp only [insertByName, h, if_true, List.mem_cons, ih]
      exact or_left_comm
    · simp [insertByName, h]

theorem perm_insertByName (t : Tree ClassNode) (ss : List (Tree ClassNode)) :
    (insertByName t ss).Perm (t :: ss) := by
  induction ss with
  | nil => exact .refl _
  | cons u ss ih =>
    by_cases h : u.value.name < t.value.name
    · simp only [insertByName, h, if_true]
      exact (ih.cons u).trans (.swap t u ss)
    · simp [insertByName, h]

namespace Tree

theorem toList_modifyChildren_insert (p : ClassNode → Bool) (x : ClassNode) (t : Tree ClassNode) :
    (t.modifyChildren p (insertByName (.leaf x))).toList.Perm
      ((t.toList.filter p).map (fun _ => x) ++ t.toList) := by
  induction t with
  | node a ts ih =>
    have hts : ((ts.map (modifyChildren p (insertByName (.leaf x)))).flatMap toList).Perm
        (((ts.flatMap toList).filter p).map (fun _ => x) ++ ts.flatMap toList) := by
      rw [List.flatMap_map, List.filter_flatMap, List.map_flatMap]
      exact (List.Perm.flatMap_left ts ih).trans (List.flatMap_append_perm ts _ _).symm
    by_cases hp : p a = true
    · have hins := ((perm_insertByName (.leaf x)
        (ts.map (modifyChildren p (insertByName (.leaf x))))).flatMap_right toList).trans
          (hts.cons x)
      simp only [modifyChildren_node, hp, if_true, toList_node, List.filter_cons_of_pos,
        List.map_cons]
      exact (hins.cons a).trans (@List.perm_middle _ a (x :: _) _).symm
    · simp only [modifyChildren_node, hp, toList_node, List.filter_cons_of_neg hp]
      exact (hts.cons a).trans List.perm_middle.symm

/-- Where a value lies: its parent and its depth. -/
def Lies {α : Type} (t : Tree α) (parent : Option α) (depth : Nat) (v : α) (q : Option α)
    (e : Nat) : Prop :=
  ∃ r ∈ t.rows parent depth, r.value = v ∧ r.parent = q ∧ r.depth = e

theorem lies_node {α : Type} {parent : Option α} {depth : Nat} {a : α} {ts : List (Tree α)} {v : α}
    {q : Option α} {e : Nat} :
    (node a ts).Lies parent depth v q e ↔
      (a = v ∧ parent = q ∧ depth = e) ∨ ∃ t ∈ ts, t.Lies (some a) (depth + 1) v q e := by
  simp only [Lies, mem_rows_node]
  constructor
  · rintro ⟨r, rfl | ⟨t, ht, hr⟩, h⟩
    · exact .inl h
    · exact .inr ⟨t, ht, r, hr, h⟩
  · rintro (h | ⟨t, ht, r, hr, h⟩)
    · exact ⟨_, .inl rfl, h⟩
    · exact ⟨r, .inr ⟨t, ht, hr⟩, h⟩

theorem Lies.of_modifyChildren_insert {p : ClassNode → Bool} {x : ClassNode} {t : Tree ClassNode}
    {parent : Option ClassNode} {depth : Nat} {v : ClassNode} {q : Option ClassNode} {e : Nat}
    (h : (t.modifyChildren p (insertByName (.leaf x))).Lies parent depth v q e) :
    t.Lies parent depth v q e ∨
      ∃ a b d, t.Lies parent depth a b d ∧ p a = true ∧ v = x ∧ q = some a ∧ e = d + 1 := by
  induction t generalizing parent depth with
  | node a ts ih =>
    have hbelow : ∀ s ∈ ts.map (modifyChildren p (insertByName (.leaf x))),
        s.Lies (some a) (depth + 1) v q e →
        (node a ts).Lies parent depth v q e ∨ ∃ b c d, (node a ts).Lies parent depth b c d ∧
          p b = true ∧ v = x ∧ q = some b ∧ e = d + 1 := by
      intro s hs hl
      obtain ⟨t, ht, rfl⟩ := List.mem_map.mp hs
      rcases ih t ht hl with hl | ⟨b, c, d, hl, hh⟩
      · exact .inl (lies_node.mpr (.inr ⟨t, ht, hl⟩))
      · exact .inr ⟨b, c, d, lies_node.mpr (.inr ⟨t, ht, hl⟩), hh⟩
    rw [modifyChildren_node, lies_node] at h
    rcases h with h | ⟨s, hs, hl⟩
    · exact .inl (lies_node.mpr (.inl h))
    · by_cases hp : p a = true
      · rw [if_pos hp, mem_insertByName] at hs
        rcases hs with rfl | hs
        · rw [leaf, lies_node] at hl
          obtain ⟨rfl, rfl, rfl⟩ := hl.resolve_right (by simp)
          exact .inr ⟨a, parent, depth, lies_node.mpr (.inl ⟨rfl, rfl, rfl⟩), hp, rfl, rfl, rfl⟩
        · exact hbelow s hs hl
      · rw [if_neg hp] at hs
        exact hbelow s hs hl

end Tree

/-- Links, latest first: each new class is put under a root or under a class that was put somewhere
before. -/
inductive Linked (roots : List String) : List Link → Prop
  | nil : Linked roots []
  | cons {link : Link} {links : List Link} (earlier : Linked roots links)
      (parent : link.parent ∈ roots ∨ link.parent ∈ links.map (·.child.name))
      (not_root : link.child.name ∉ roots)
      (fresh : link.child.name ∉ links.map (·.child.name)) : Linked roots (link :: links)

def rootIn : List Link → String → String
  | [], n => n
  | link :: links, n =>
    if link.child.name = n then rootIn links link.parent else rootIn links n

def depthIn : List Link → String → Nat
  | [], _ => 0
  | link :: links, n =>
    if link.child.name = n then depthIn links link.parent + 1 else depthIn links n

theorem rootIn_cons_of_ne {link : Link} {links : List Link} {n : String}
    (h : link.child.name ≠ n) : rootIn (link :: links) n = rootIn links n := by
  simp [rootIn, h]

theorem depthIn_cons_of_ne {link : Link} {links : List Link} {n : String}
    (h : link.child.name ≠ n) : depthIn (link :: links) n = depthIn links n := by
  simp [depthIn, h]

theorem rootIn_cons_self (link : Link) (links : List Link) :
    rootIn (link :: links) link.child.name = rootIn links link.parent := by
  simp [rootIn]

theorem depthIn_cons_self (link : Link) (links : List Link) :
    depthIn (link :: links) link.child.name = depthIn links link.parent + 1 := by
  simp [depthIn]

theorem Linked.nodup_names {roots : List String} {links : List Link} (h : Linked roots links) :
    (links.map (·.child.name)).Nodup := by
  induction h with
  | nil => exact List.nodup_nil
  | cons _ _ _ fresh ih => exact List.nodup_cons.mpr ⟨fresh, ih⟩

theorem Linked.disjoint {roots : List String} {links : List Link} (h : Linked roots links) :
    ∀ n ∈ links.map (·.child.name), n ∉ roots := by
  induction h with
  | nil => simp
  | cons _ _ not_root _ ih =>
    intro n hn
    rcases List.mem_cons.mp hn with rfl | hn
    · exact not_root
    · exact ih n hn

namespace Forest

def grown (roots : List ClassDecl) (links : List Link) : List (Tree ClassNode) :=
  links.foldr (fun link forest => graft forest link) (roots.map fun c => .leaf (.ofDecl c))

theorem grown_cons (roots : List ClassDecl) (link : Link) (links : List Link) :
    grown roots (link :: links) = graft (grown roots links) link := rfl

def growTree (links : List Link) (t : Tree ClassNode) : Tree ClassNode :=
  links.foldr (fun link t =>
    t.modifyChildren (fun n => n.name == link.parent) (insertByName (.leaf link.child))) t

theorem value_growTree (links : List Link) (t : Tree ClassNode) :
    (growTree links t).value = t.value := by
  induction links with
  | nil => rfl
  | cons link links ih => rw [growTree, List.foldr_cons, Tree.value_modifyChildren, ← ih]; rfl

/-- Every tree grows by itself. -/
theorem grown_eq_map (roots : List ClassDecl) (links : List Link) :
    grown roots links = roots.map fun c => growTree links (.leaf (.ofDecl c)) := by
  induction links with
  | nil => rfl
  | cons link links ih =>
    rw [grown_cons, ih, graft, List.map_map]
    rfl

theorem ofLinks_eq (classes : List ClassDecl) (links : List Link) :
    ofLinks classes links =
      ⟨(sortByKey (fun t : Tree ClassNode => t.value.name)
        (grown (classes.filter fun c => !(links.map (·.child.name)).contains c.name)
          links)).map .ofTree⟩ := by
  simp only [ofLinks, grown, List.foldl_reverse]

/-- No class is lost and none is doubled. -/
theorem names_grown {roots : List ClassDecl} {links : List Link}
    (hnd : (roots.map (·.name)).Nodup) (h : Linked (roots.map (·.name)) links) :
    (((grown roots links).flatMap Tree.toList).map (·.name)).Perm
      (links.map (·.child.name) ++ roots.map (·.name)) := by
  induction h with
  | nil =>
    have h : (grown roots []).flatMap Tree.toList = roots.map ClassNode.ofDecl := by
      rw [grown, List.foldr_nil, List.flatMap_map, List.map_eq_flatMap]
      exact List.flatMap_congr fun c _ => by simp [Tree.leaf]
    rw [h, List.map_map]
    exact .refl _
  | @cons link links hl hparent hroot hfresh ih =>
    let nodes := (grown roots links).flatMap Tree.toList
    have hnames : (nodes.map (·.name)).Nodup :=
      ih.nodup_iff.mpr (List.Nodup.append hl.nodup_names hnd hl.disjoint)
    have hmem : link.parent ∈ nodes.map (·.name) := by
      rw [ih.mem_iff, List.mem_append]
      exact hparent.symm
    -- exactly one node has the parent's name
    have hone : ((nodes.filter fun n => n.name == link.parent).map fun _ => link.child) =
        [link.child] := by
      have hlen : (nodes.filter fun n => n.name == link.parent).length = 1 := by
        rw [← List.countP_eq_length_filter]
        have hc := List.count_eq_one_of_mem hnames hmem
        rwa [List.count, List.countP_map] at hc
      obtain ⟨n, hn⟩ := List.length_eq_one_iff.mp hlen
      rw [hn]
      rfl
    have hgraft : ((graft (grown roots links) link).flatMap Tree.toList).Perm
        ((nodes.filter fun n => n.name == link.parent).map (fun _ => link.child) ++ nodes) := by
      rw [graft, List.flatMap_map, List.filter_flatMap, List.map_flatMap]
      exact (List.Perm.flatMap_left _ fun t _ => Tree.toList_modifyChildren_insert _ _ t).trans
        (List.flatMap_append_perm _ _ _).symm
    rw [hone] at hgraft
    rw [grown_cons]
    exact (hgraft.map ClassNode.name).trans (ih.cons link.child.name)

theorem lies_grown {roots : List ClassDecl} {links : List Link}
    (h : Linked (roots.map (·.name)) links) {t : Tree ClassNode} (ht : t ∈ grown roots links)
    {v : ClassNode} {q : Option ClassNode} {e : Nat} (hl : t.Lies none 0 v q e) :
    (t.value.name = rootIn links v.name ∧ e = depthIn links v.name) ∧
      ((q = none ∧ ∃ c ∈ roots, v = .ofDecl c) ∨
        ∃ a link, link ∈ links ∧ q = some a ∧ v = link.child ∧ a.name = link.parent) := by
  induction h generalizing t v q e with
  | nil =>
    obtain ⟨c, hc, rfl⟩ := List.mem_map.mp ht
    rw [Tree.leaf, Tree.lies_node] at hl
    obtain ⟨rfl, rfl, rfl⟩ := hl.resolve_right (by simp)
    exact ⟨⟨rfl, rfl⟩, .inl ⟨rfl, c, hc, rfl⟩⟩
  | @cons link links hlk hparent hroot hfresh ih =>
    rw [grown_cons, graft] at ht
    obtain ⟨s, hs, rfl⟩ := List.mem_map.mp ht
    rw [Tree.value_modifyChildren]
    rcases hl.of_modifyChildren_insert with hold | ⟨a, b, d, habove, hp, rfl, rfl, rfl⟩
    · obtain ⟨⟨hr, hd⟩, hv⟩ := ih hs hold
      have hne : link.child.name ≠ v.name := by
        intro he
        rcases hv with ⟨_, c, hc, rfl⟩ | ⟨_, l, hm, _, rfl, _⟩
        · exact hroot (he ▸ List.mem_map_of_mem hc)
        · exact hfresh (he ▸ List.mem_map_of_mem hm)
      rw [rootIn_cons_of_ne hne, depthIn_cons_of_ne hne]
      refine ⟨⟨hr, hd⟩, hv.imp id ?_⟩
      rintro ⟨a, l, hm, hh⟩
      exact ⟨a, l, List.mem_cons_of_mem _ hm, hh⟩
    · obtain ⟨⟨hr, hd⟩, _⟩ := ih hs habove
      have he : a.name = link.parent := by simpa using hp
      rw [rootIn_cons_self, depthIn_cons_self, ← he]
      exact ⟨⟨hr, by rw [hd]⟩, .inr ⟨a, link, List.mem_cons_self, rfl, rfl, he⟩⟩

theorem names_unplaced (classes : List ClassDecl) (placed : List String) :
    (classes.filter fun c => !placed.contains c.name).map (·.name) =
      (classes.map (·.name)).filter fun n => !placed.contains n := by
  rw [List.filter_map]
  rfl

/-- Numbering and sorting move nothing: a row lies where the links put its class. -/
theorem row_ofLinks {classes : List ClassDecl} {links : List Link}
    (hl : Linked ((classes.map (·.name)).filter fun n => !(links.map (·.child.name)).contains n)
      links)
    {t : ClassTree} (ht : t ∈ (ofLinks classes links).trees) {r : Tree.Row ClassNode}
    (hr : r ∈ t.rows) :
    (t.root.name = rootIn links r.value.name ∧ r.depth = depthIn links r.value.name) ∧
      ((r.parent = none ∧ ∃ c ∈ classes, c.name ∉ links.map (·.child.name) ∧
          r.value.unnumbered = .ofDecl c) ∨
        ∃ q link, link ∈ links ∧ r.parent = some q ∧ r.value.unnumbered = link.child.unnumbered ∧
          q.name = link.parent) := by
  rw [ofLinks_eq] at ht
  obtain ⟨s, hs, rfl⟩ := List.mem_map.mp ht
  have hgrown := (perm_sortByKey _ _).mem_iff.mp hs
  have hm := List.mem_map_of_mem (f := Tree.Row.map ClassNode.unnumbered) hr
  rw [ClassTree.unnumbered_rows_ofTree] at hm
  obtain ⟨r', hr', he⟩ := List.mem_map.mp hm
  have hv : r'.value.unnumbered = r.value.unnumbered := congrArg Tree.Row.value he
  have hname : r'.value.name = r.value.name := by simpa using congrArg ClassNode.name hv
  have hp : r'.parent.map ClassNode.unnumbered = r.parent.map ClassNode.unnumbered :=
    congrArg Tree.Row.parent he
  have hd : r'.depth = r.depth := by simpa [Tree.Row.map] using congrArg Tree.Row.depth he
  obtain ⟨hwhere, hkind⟩ :=
    lies_grown (names_unplaced classes _ ▸ hl) hgrown ⟨r', hr', rfl, rfl, rfl⟩
  rw [ClassTree.root_name_ofTree, ← hname, ← hd]
  refine ⟨hwhere, ?_⟩
  rcases hkind with ⟨hnone, c, hc, hval⟩ | ⟨a, link, hlink, hsome, hval, ha⟩
  · obtain ⟨hc, hout⟩ := List.mem_filter.mp hc
    rw [hnone, Option.map_none, eq_comm, Option.map_eq_none_iff] at hp
    refine .inl ⟨hp, c, hc, by simpa using hout, ?_⟩
    rw [← hv, hval]
    rfl
  · rw [hsome, Option.map_some, eq_comm, Option.map_eq_some_iff] at hp
    obtain ⟨q, hq, hqa⟩ := hp
    refine .inr ⟨q, link, hlink, hq, by rw [← hv, hval], ?_⟩
    rw [← ha]
    simpa using congrArg ClassNode.name hqa

end Forest

end ClassSketch
