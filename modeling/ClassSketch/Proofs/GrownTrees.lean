import ClassSketch.Proofs.SortedSiblings

/-! Trees to which nodes were added for a while. An addition changes one list of children and puts
one row at the end. Taking the nodes off again gives back the rows that were there before. -/

namespace ClassSketch

namespace ClassTree

section Trails

/-- The numbers of the nodes above one, nearest first, if they are gone through from the root down. -/
inductive Trail (t : ClassTree) : Nat → List Nat → Prop
  | root : Trail t 0 []
  | child {i p : Nat} {above : List Nat} (upper : Trail t p above) (mem : i ∈ t.childIds p) :
    Trail t i (p :: above)

variable {t : ClassTree}

theorem WellLinked.trail_unique (h : t.WellLinked) {i : Nat} {above other : List Nat}
    (ha : t.Trail i above) (ho : t.Trail i other) : above = other := by
  have hroot : ∀ p, 0 ∉ t.childIds p := by
    intro p hp
    have hnone := (h.parent_eq_none_iff 0 h.size_pos).mpr rfl
    rw [(h.parent_of_mem 0 p hp).2] at hnone
    cases hnone
  induction ha generalizing other with
  | root =>
    cases ho with
    | root => rfl
    | child _ mem => exact absurd mem (hroot _)
  | @child i p above _ mem ih =>
    cases ho with
    | root => exact absurd mem (hroot _)
    | @child _ q other upper mem' =>
      have hsame := (h.parent_of_mem i p mem).2.symm.trans (h.parent_of_mem i q mem').2
      obtain rfl := Option.some.inj hsame
      rw [ih upper]

/-- Going down from the root, every node is come to in one way. -/
theorem WellLinked.existsUnique_trail (h : t.WellLinked) {i : Nat} (hi : i < t.size) :
    ∃! above, t.Trail i above := by
  have hexists : ∃ above, t.Trail i above := by
    refine (h.reaches_root i hi).head_induction_on ⟨[], .root⟩ ?_
    rintro j p hp _ ⟨above, hup⟩
    obtain ⟨_, hcount⟩ := h.count_childIds j p hp
    exact ⟨p :: above, .child hup (List.count_pos_iff.mp (by omega))⟩
  obtain ⟨above, ha⟩ := hexists
  exact ⟨above, ha, fun other ho => h.trail_unique ho ha⟩

end Trails

section Rows

/-- The list of rows after a node was put under the one with a number: its place among the children
is found by halving, and its row comes last. -/
def rowsWith (rows : List (Tree.Row ClassNode)) (parent : Nat) (x : ClassNode) :
    List (Tree.Row ClassNode) :=
  match rows[parent]? with
  | none => rows
  | some r =>
    let place := searchPlace (fun c => c.name < x.name) r.children 0 r.children.length
    rows.set parent { r with children := r.children.insertIdx place x } ++ [r.below x]

variable {t : ClassTree}

theorem Indexed.rows_pairwise (h : t.Indexed) : t.rows.Pairwise fun a b => a.value.id < b.value.id := by
  rw [← List.pairwise_map (f := fun r : Tree.Row ClassNode => r.value.id) (R := (· < ·)), h.ids_rows]
  exact List.pairwise_lt_range

/-- In rows that stand by their numbers, changing those with a number changes one place. -/
theorem Indexed.map_ite_rows (h : t.Indexed) {parent : Nat} {r : Tree.Row ClassNode}
    (hr : t.rows[parent]? = some r) (f : Tree.Row ClassNode → Tree.Row ClassNode) :
    (t.rows.map fun q => if q.value.id == parent then f q else q) = t.rows.set parent (f r) := by
  apply List.ext_getElem?
  intro i
  rw [List.getElem?_map, List.getElem?_set]
  cases hq : t.rows[i]? with
  | none =>
    have hlen := List.getElem?_eq_none_iff.mp hq
    rw [Option.map_none]
    split
    · rw [if_neg (by omega)]
    · rfl
  | some q =>
    obtain ⟨_, rfl⟩ := h.row_at_iff.mp hq
    obtain ⟨hlen, _⟩ := List.getElem?_eq_some_iff.mp hq
    rw [Option.map_some]
    by_cases he : parent = q.value.id
    · subst he
      obtain rfl := Option.some.inj (hq.symm.trans hr)
      simp [hlen]
    · simp [he, Ne.symm he]

theorem Indexed.filter_rows (h : t.Indexed) {parent : Nat} {r : Tree.Row ClassNode}
    (hr : t.rows[parent]? = some r) : (t.rows.filter fun q => q.value.id == parent) = [r] := by
  obtain ⟨hm, hid⟩ := h.row_at_iff.mp hr
  have hids : (t.rows.filter fun q => q.value.id == parent).map (·.value.id) = [parent] := by
    have hmem : parent ∈ List.range t.size :=
      h.ids_rows ▸ hid ▸ List.mem_map_of_mem (f := fun q : Tree.Row ClassNode => q.value.id) hm
    have hrange : (List.range t.size).filter (· == parent) = [parent] := by
      rw [List.filter_beq, List.count_eq_one_of_mem List.nodup_range hmem]
      rfl
    rw [← hrange, ← h.ids_rows, List.filter_map]
    rfl
  obtain ⟨q, hq, _⟩ := List.map_eq_singleton_iff.mp hids
  have hmem : q ∈ t.rows.filter fun q => q.value.id == parent := hq ▸ List.mem_singleton_self q
  obtain ⟨hqm, hqid⟩ := List.mem_filter.mp hmem
  have hat := h.row_at_iff.mpr ⟨hqm, by simpa using hqid⟩
  rw [hq, Option.some.inj (hat.symm.trans hr)]

theorem Indexed.rows_addTransient (h : t.Indexed) (hs : t.ChildrenSorted) {parent : Nat}
    (hp : parent < t.size) (n : ClassNode) :
    (t.addTransient parent n).2.rows = rowsWith t.rows parent { n with id := t.size } := by
  obtain ⟨r, hr⟩ := h.exists_row hp
  obtain ⟨hm, hid⟩ := h.row_at_iff.mp hr
  set x : ClassNode := { n with id := t.size }
  have hafter : (t.addTransient parent n).2.Indexed := (h.addTransient hp n).1
  have hwith : rowsWith t.rows parent x = t.rows.set parent (r.gain x) ++ [r.below x] := by
    rw [rowsWith, hr]
    simp only [Tree.Row.gain, (hs r hm).insertNode_eq x]
  have hperm : (t.addTransient parent n).2.rows.Perm (rowsWith t.rows parent x) := by
    have hins := Tree.rows_modifyChildren_insert (fun m => m.id == parent) x t.tree none 0
    have hold := ((t.perm_rows.symm.filter fun q => q.value.id == parent).map
      fun q : Tree.Row ClassNode => q.below x).append
      (t.perm_rows.symm.map fun q => if q.value.id == parent then q.gain x else q)
    rw [h.filter_rows hr, h.map_ite_rows hr] at hold
    rw [hwith]
    exact (perm_rows _).trans (hins.trans (hold.trans List.perm_append_comm))
  have hpairwise : (rowsWith t.rows parent x).Pairwise fun a b => a.value.id < b.value.id := by
    have hids : (rowsWith t.rows parent x).map (·.value.id) = List.range (t.size + 1) := by
      have hkeep : ∀ q : Tree.Row ClassNode,
          (if q.value.id == parent then q.gain x else q).value.id = q.value.id := by
        intro q
        split <;> rfl
      rw [hwith, ← h.map_ite_rows hr (·.gain x), List.map_append, List.map_map, List.range_succ,
        ← h.ids_rows]
      exact congrArg (· ++ [t.size]) (List.map_congr_left fun q _ => hkeep q)
    rw [← List.pairwise_map (f := fun q : Tree.Row ClassNode => q.value.id) (R := (· < ·)), hids]
    exact List.pairwise_lt_range
  exact hperm.eq_of_pairwise (fun a b _ _ hab hba => absurd hab (by omega)) hafter.rows_pairwise
    hpairwise

end Rows

end ClassTree

/-- What is asked for when a node is added: any node under a parent, or the one for a call site of
the class at a node. -/
inductive Addition where
  | node (parent : Nat) (n : ClassNode)
  | lambda (home index : Nat) (site : CallSite)

namespace Addition

def parent : Addition → Nat
  | node parent _ => parent
  | lambda home _ _ => home

def kind : Addition → NestKind
  | node _ n => n.kind
  | lambda _ _ _ => .lambda

/-- The node that is added, up to its number. -/
def Makes (t : ClassTree) (n : ClassNode) : Addition → Prop
  | node _ m => n = m
  | lambda home index site =>
    ∃ h ∈ t.nodes, h.id = home ∧ n = ClassNode.ofLambda h.decl index site

theorem Makes.kind_eq {t : ClassTree} {n : ClassNode} {a : Addition} (h : a.Makes t n) :
    n.kind = a.kind := by
  cases a with
  | node _ m => exact congrArg ClassNode.kind h
  | lambda home index site =>
    obtain ⟨_, _, _, rfl⟩ := h
    rfl

end Addition

namespace ClassTree

def add (t : ClassTree) : Addition → ClassTree
  | .node parent n => (t.addTransient parent n).2
  | .lambda home index site =>
    match t.node? home with
    | none => t
    | some h => (t.addLambda h index site).2

def addAll (t : ClassTree) (as : List Addition) : ClassTree := as.foldl add t

/-- Every parent is a node of the tree at the time. -/
def Fits (t : ClassTree) : List Addition → Prop
  | [] => True
  | a :: as => a.parent ∈ t.nodes.map (·.id) ∧ (t.add a).Fits as

theorem addAll_concat (t : ClassTree) (as : List Addition) (a : Addition) :
    t.addAll (as ++ [a]) = (t.addAll as).add a := List.foldl_concat ..

theorem fits_append {t : ClassTree} {as bs : List Addition} :
    t.Fits (as ++ bs) ↔ t.Fits as ∧ (t.addAll as).Fits bs := by
  induction as generalizing t with
  | nil => simp [Fits, addAll]
  | cons a as ih => simp [Fits, addAll, ih, and_assoc]

theorem node?_eq_find? (t : ClassTree) (id : Nat) : t.node? id = t.nodes.find? fun n => n.id == id :=
  Tree.map_value_subtree? _ _

theorem exists_add_eq {t : ClassTree} {a : Addition} (ha : a.parent ∈ t.nodes.map (·.id)) :
    ∃ n, a.Makes t n ∧ t.add a = (t.addTransient a.parent n).2 := by
  cases a with
  | node parent n => exact ⟨n, rfl, rfl⟩
  | lambda home index site =>
    obtain ⟨m, hm, hid⟩ := List.mem_map.mp ha
    have hid : m.id = home := hid
    obtain ⟨h, hh⟩ : ∃ h, t.node? home = some h := by
      rw [node?_eq_find?, ← Option.isSome_iff_exists, List.find?_isSome]
      exact ⟨m, hm, by simpa using hid⟩
    have hfound := hh
    rw [node?_eq_find?] at hfound
    have hhome : h.id = home := by simpa using List.find?_some hfound
    refine ⟨_, ⟨h, List.mem_of_find?_eq_some hfound, hhome, rfl⟩, ?_⟩
    rw [add, hh]
    exact congrArg (fun i => (t.addTransient i (.ofLambda h.decl index site)).2) hhome

theorem lookup_filter_not_contains {names : List String} {k : String} (hk : k ∉ names)
    (es : List (String × Nat)) :
    (es.filter fun e => !names.contains e.1).lookup k = es.lookup k := by
  induction es with
  | nil => rfl
  | cons e es ih =>
    by_cases he : (!names.contains e.1) = true
    · rw [List.filter_cons, if_pos he, List.lookup_cons, List.lookup_cons, ih]
    · have hne : k ≠ e.1 := by
        rintro rfl
        exact he (by simpa using hk)
      rw [List.filter_cons, if_neg he, ih, List.lookup_cons, beq_false_of_ne hne]

theorem lookup_append_of_ne {k : String} {xs ys : List (String × Nat)} (h : ∀ e ∈ xs, e.1 ≠ k) :
    (xs ++ ys).lookup k = ys.lookup k := by
  induction xs with
  | nil => rfl
  | cons e xs ih =>
    rw [List.forall_mem_cons] at h
    rw [List.cons_append, List.lookup_cons, beq_false_of_ne (Ne.symm h.1)]
    exact ih h.2

/-- The tree is another one with nodes of some kinds added to it. They have the numbers from its size
on, lie below the nodes that were there, and their names stand first in the index. -/
structure GrownFrom (kinds : NestKind → Prop) (t s : ClassTree) : Prop where
  indexed : s.Indexed
  sorted : s.ChildrenSorted
  extend : t.Extends s
  below : ∀ r ∈ s.rows, r.value.id < t.built → ∀ q, r.parent = some q → q.id < t.built
  added : ∃ added : List ClassNode, s.nodes.Perm (added ++ t.nodes) ∧
    (∀ n ∈ added, t.built ≤ n.id ∧ kinds n.kind) ∧
    s.index = added.map (fun n => (n.name, n.id)) ++ t.index

namespace GrownFrom

variable {kinds : NestKind → Prop} {t s : ClassTree}

theorem refl (hi : t.Indexed) (hs : t.ChildrenSorted) (ht : t.Bare) : t.GrownFrom kinds t := by
  refine ⟨hi, hs, .refl t, ?_, [], .refl _, by simp, rfl⟩
  intro r hr _ q hq
  obtain ⟨p, hp, rfl, _⟩ := parent_row hr hq
  exact ht.id_lt _ (mem_nodes_of_mem_rows hp)

theorem addTransient (h : t.GrownFrom kinds s) (ht : t.built = t.size) {parent : Nat}
    (hp : parent < s.size) {n : ClassNode} (hn : kinds n.kind) :
    t.GrownFrom kinds (s.addTransient parent n).2 := by
  have hnew : t.built ≤ s.size := ht ▸ h.extend.size_le
  refine ⟨(h.indexed.addTransient hp n).1, ?_, h.extend.addTransient ht parent n, ?_, ?_⟩
  · intro r hr
    have hold : ∀ q ∈ s.tree.rows none 0, NamesSorted q.children :=
      fun q hq => h.sorted q (mem_rows_iff.mpr hq)
    exact Tree.sorted_modifyChildren_insert hold r (mem_rows_iff.mp hr)
  · intro r hr hid q hq
    have hrow := (Tree.rows_modifyChildren_insert (fun m => m.id == parent)
      { n with id := s.size } s.tree none 0).mem_iff.mp (mem_rows_iff.mp hr)
    rcases List.mem_append.mp hrow with hrow | hrow
    · obtain ⟨_, _, rfl⟩ := List.mem_map.mp hrow
      have hid : s.size < t.built := hid
      omega
    · -- the value and the parent of a row stay when it gains a child
      obtain ⟨p, hp, rfl⟩ := List.mem_map.mp hrow
      have hold := h.below p (mem_rows_iff.mpr hp)
      split at hid <;> split at hq <;> exact hold hid q hq
  · have hperm := Tree.toList_modifyChildren_insert (fun m => m.id == parent)
      { n with id := s.size } s.tree
    obtain ⟨m, hm⟩ := List.length_eq_one_iff.mp (h.indexed.filter_id hp)
    rw [nodes] at hm
    rw [hm, List.map_singleton, List.singleton_append] at hperm
    obtain ⟨added, hnodes, hadded, hindex⟩ := h.added
    refine ⟨{ n with id := s.size } :: added, hperm.trans (hnodes.cons _), ?_, ?_⟩
    · rw [List.forall_mem_cons]
      exact ⟨⟨hnew, hn⟩, hadded⟩
    · rw [List.map_cons, List.cons_append, ← hindex]
      rfl

theorem add (h : t.GrownFrom kinds s) (ht : t.built = t.size) {a : Addition}
    (ha : a.parent ∈ s.nodes.map (·.id)) (hkind : kinds a.kind) : t.GrownFrom kinds (s.add a) := by
  obtain ⟨n, hn, hadd⟩ := exists_add_eq ha
  rw [hadd]
  exact h.addTransient ht (List.mem_range.mp (h.indexed.ids.mem_iff.mp ha)) (hn.kind_eq ▸ hkind)

theorem addAll (h : t.GrownFrom kinds s) (ht : t.built = t.size) {as : List Addition}
    (has : s.Fits as) (hkinds : ∀ a ∈ as, kinds a.kind) : t.GrownFrom kinds (s.addAll as) := by
  induction as generalizing s with
  | nil => exact h
  | cons a as ih =>
    rw [List.forall_mem_cons] at hkinds
    exact ih (h.add ht has.1 hkinds.1) has.2 hkinds.2

theorem detach_tree (h : t.GrownFrom kinds s) (ht : t.Bare) : s.detach.tree = t.tree := by
  have hkeep : (s.tree.keep fun n => n.id < t.built) = t.tree.keep fun n => n.id < t.built :=
    h.extend.keep_eq
  rw [ClassTree.detach, h.extend.built_eq, hkeep]
  exact Tree.keep_of_forall fun n hn => decide_eq_true (ht.id_lt n hn)

theorem detach_find? (h : t.GrownFrom kinds s) {name : String}
    (hname : ∀ n ∈ s.nodes, t.built ≤ n.id → n.name ≠ name) : s.detach.find? name = t.find? name := by
  have hkept : name ∉ (s.nodes.filter fun n => s.built ≤ n.id).map (·.name) := by
    intro hmem
    obtain ⟨n, hn, he⟩ := List.mem_map.mp hmem
    obtain ⟨hn, hid⟩ := List.mem_filter.mp hn
    exact hname n hn (h.extend.built_eq ▸ of_decide_eq_true hid) he
  obtain ⟨added, hnodes, hadded, hindex⟩ := h.added
  have hnames : ∀ e ∈ added.map (fun n => (n.name, n.id)), e.1 ≠ name := by
    intro e he
    obtain ⟨n, hn, rfl⟩ := List.mem_map.mp he
    exact hname n (hnodes.mem_iff.mpr (List.mem_append_left _ hn)) (hadded n hn).1
  calc s.detach.find? name
      = s.index.lookup name := lookup_filter_not_contains hkept s.index
    _ = t.find? name := by rw [hindex, lookup_append_of_ne hnames, find?]

end GrownFrom

end ClassTree

theorem Forest.grownFrom_build {l : Library} {o : Options} {policy : Renaming} {t : ClassTree}
    (ht : t ∈ (build l o policy).1.trees) {as : List Addition} (has : t.Fits as)
    {kinds : NestKind → Prop} (hkinds : ∀ a ∈ as, kinds a.kind) :
    t.GrownFrom kinds (t.addAll as) := by
  have hbare : t.Bare := (distinct_build l o policy).bare t ht
  have hindexed : t.Indexed := by
    obtain ⟨b, rfl⟩ := build_numbered l o policy t ht
    exact (ClassTree.numbered_ofTree b).indexed
  have hstart : t.GrownFrom kinds t := .refl hindexed (childrenSorted_build l o policy t ht) hbare
  exact hstart.addAll hbare.built_eq has hkinds

/-- Whatever nodes are added to a tree of a built forest, one after another and below each other as
well, after each addition the rows are those from before with the node put at its place, children are
sorted, the links between nodes fit, and every node is come to in one way from the root. Detaching
gives back the rows of the tree, and for a name that no added node has, what was found under it. -/
theorem Forest.transients_come_and_go (l : Library) (o : Options) (policy : Renaming)
    {t : ClassTree} (ht : t ∈ (build l o policy).1.trees) {as : List Addition} (has : t.Fits as) :
    (∀ before a, before ++ [a] <+: as →
      let s := t.addAll before
      let s' := t.addAll (before ++ [a])
      (∃ n, a.Makes s n ∧ s'.rows = ClassTree.rowsWith s.rows a.parent { n with id := s.size }) ∧
        s'.ChildrenSorted ∧ s'.WellLinked ∧ ∀ i < s'.size, ∃! above, s'.Trail i above) ∧
      (t.addAll as).detach.rows = t.rows ∧
      ∀ name, (∀ n ∈ (t.addAll as).nodes, t.size ≤ n.id → n.name ≠ name) →
        (t.addAll as).detach.find? name = t.find? name := by
  have hbare : t.Bare := (distinct_build l o policy).bare t ht
  have hgrown : ∀ bs, t.Fits bs → t.GrownFrom (fun _ => True) (t.addAll bs) :=
    fun bs hbs => grownFrom_build ht hbs fun _ _ => trivial
  refine ⟨fun before a hsteps => ?_, ?_, fun name hname => ?_⟩
  · intro s s'
    obtain ⟨rest, rfl⟩ := hsteps
    obtain ⟨hfit, -⟩ := ClassTree.fits_append.mp has
    obtain ⟨hbefore, hparent, -⟩ := ClassTree.fits_append.mp hfit
    have hs := hgrown before hbefore
    have hs' := hgrown (before ++ [a]) hfit
    have hlinked := hs'.indexed.wellLinked
    refine ⟨?_, hs'.sorted, hlinked, fun i hi => hlinked.existsUnique_trail hi⟩
    obtain ⟨n, hn, hadd⟩ := ClassTree.exists_add_eq hparent
    have hlt : a.parent < s.size := List.mem_range.mp (hs.indexed.ids.mem_iff.mp hparent)
    refine ⟨n, hn, ?_⟩
    rw [show s' = (s.addTransient a.parent n).2 from (t.addAll_concat before a).trans hadd]
    exact hs.indexed.rows_addTransient hs.sorted hlt n
  · rw [ClassTree.rows, (hgrown as has).detach_tree hbare, ClassTree.rows]
  · exact (hgrown as has).detach_find? (hbare.built_eq ▸ hname)

def lambdaHost : Library :=
  .ofList [
    { name := "a/O", access := .publicFlag
      nesting := some [{ inner := "a/O$I", outer := some "a/O", simpleName := some "I" }] },
    { name := "a/O$I" }]

def runSite : CallSite where
  interface := "java/lang/Runnable"
  methodName := "run"
  methodDescriptor := "()V"
  targetClass := "a/O"
  targetMethod := "lambda$main$0"
  targetDescriptor := "()V"
  handle := .invokeStatic

/-- Two lambdas of the root, the later one with the smaller name, and one below the first of them. -/
def threeLambdas : List Addition := [.lambda 0 1 runSite, .lambda 0 0 runSite, .lambda 2 0 runSite]

theorem transients_come_and_go_lambdas :
    ∃ t ∈ (Forest.build lambdaHost {} .keep).1.trees, t.Fits threeLambdas ∧
      (t.addAll threeLambdas).childIds 0 = [3, 2, 1] ∧
      (t.addAll threeLambdas).detach.rows = t.rows ∧
      (t.addAll threeLambdas).detach.find? "a/O$I" = t.find? "a/O$I" := by
  have hfound : ((Forest.build lambdaHost {} .keep).1.trees.any fun t =>
      (t.nodes.map (·.id)).contains 0 &&
        ((t.add (.lambda 0 1 runSite)).nodes.map (·.id)).contains 0 &&
        ((t.addAll [.lambda 0 1 runSite, .lambda 0 0 runSite]).nodes.map (·.id)).contains 2 &&
        (t.addAll threeLambdas).childIds 0 == [3, 2, 1] &&
        (t.addAll threeLambdas).nodes.all fun n => n.name != "a/O$I" || n.id < t.size) = true := by
    simp only [Forest.build, Forest.ofLinks, Ground.nest, Ground.unclaimed,
      ClassTree.childIds, ClassTree.rows, sortByKey_eq_insertionSort]
    decide +kernel
  obtain ⟨t, ht, hchecks⟩ := List.any_eq_true.mp hfound
  simp only [Bool.and_eq_true, List.contains_iff_mem, beq_iff_eq, List.all_eq_true] at hchecks
  obtain ⟨⟨⟨⟨hfirst, hsecond⟩, hthird⟩, hids⟩, hnames⟩ := hchecks
  have hfits : t.Fits threeLambdas := ⟨hfirst, hsecond, hthird, trivial⟩
  obtain ⟨-, hrows, hfind⟩ := Forest.transients_come_and_go lambdaHost {} .keep ht hfits
  refine ⟨t, ht, hfits, hids, hrows, hfind _ fun n hn hle he => ?_⟩
  have hn := hnames n hn
  simp [he] at hn
  omega

end ClassSketch
