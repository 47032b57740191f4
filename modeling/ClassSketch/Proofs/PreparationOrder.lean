import ClassSketch.Proofs.GrownTrees
import ClassSketch.Proofs.Provenance

/-! The order in which the classes of a file are made ready. A subtree is one block of the order. In
the block of a node, the blocks of children that hold switch tables come first, then the node, then
the blocks of the other children. -/

namespace ClassSketch

theorem infix_flatMap_of_mem {α β : Type} {f : α → List β} {a : α} {as : List α} (h : a ∈ as) :
    f a <:+: as.flatMap f :=
  List.infix_of_mem_flatten (List.mem_map_of_mem h)

namespace Tree

variable {α : Type}

/-- The first tree is the second one or lies below its root. -/
inductive Inside (s : Tree α) : Tree α → Prop
  | refl : Inside s s
  | deeper {u : Tree α} {a : α} {ts : List (Tree α)} (mem : u ∈ ts) (inner : Inside s u) :
    Inside s (node a ts)

theorem Inside.trans {s t u : Tree α} (h : Inside s t) (h' : Inside t u) : Inside s u := by
  induction h' with
  | refl => exact h
  | deeper mem _ ih => exact .deeper mem ih

theorem Inside.child {a : α} {ts : List (Tree α)} {u t : Tree α} (h : Inside (node a ts) t)
    (hu : u ∈ ts) : Inside u t :=
  Inside.trans (.deeper hu .refl) h

theorem Inside.value_mem {s t : Tree α} (h : Inside s t) : s.value ∈ t.toList := by
  induction h with
  | refl => exact value_mem_toList _
  | deeper mem _ ih => exact mem_toList_of_child mem ih

theorem exists_inside_of_row {parent : Option α} {depth : Nat} {t : Tree α} {r : Row α}
    (h : r ∈ t.rows parent depth) :
    ∃ a ts, Inside (node a ts) t ∧ r.value = a ∧ r.children = ts.map value := by
  induction t generalizing parent depth with
  | node a ts ih =>
    rcases mem_rows_node.mp h with rfl | ⟨t, ht, hr⟩
    · exact ⟨a, ts, .refl, rfl, rfl⟩
    · obtain ⟨b, us, hin, hh⟩ := ih t ht hr
      exact ⟨b, us, .deeper ht hin, hh⟩

theorem firstSubtree?_eq (p : α → Bool) (ts : List (Tree α)) :
    firstSubtree? p ts = ts.findSome? (subtree? p) := by
  induction ts with
  | nil => rfl
  | cons t ts ih =>
    rw [firstSubtree?, ih, List.findSome?_cons]
    cases t.subtree? p <;> rfl

theorem subtree?_eq_none {p : α → Bool} {t : Tree α} (h : ∀ a ∈ t.toList, p a = false) :
    t.subtree? p = none := by
  have hfind : t.toList.find? p = none := List.find?_eq_none.mpr fun a ha => by simp [h a ha]
  rw [← map_value_subtree?, Option.map_eq_none_iff] at hfind
  exact hfind

/-- Where keys are not repeated, a subtree is found by the key of its root. -/
theorem Inside.subtree?_eq {key : α → Nat} {s t : Tree α} (h : Inside s t)
    (hnd : (t.toList.map key).Nodup) : (t.subtree? fun a => key a == key s.value) = some s := by
  induction h with
  | refl =>
    obtain ⟨a, ts⟩ := s
    rw [subtree?, value_node, if_pos (beq_self_eq_true _)]
  | @deeper u a ts mem inner ih =>
    rw [toList_node, List.map_cons, List.nodup_cons] at hnd
    obtain ⟨hroot, hrest⟩ := hnd
    obtain ⟨before, after, rfl⟩ := List.append_of_mem mem
    rw [List.flatMap_append, List.map_append, List.nodup_append, List.flatMap_cons,
      List.map_append] at hrest
    obtain ⟨_, hfrom, hapart⟩ := hrest
    have hmem : key s.value ∈ u.toList.map key := List.mem_map_of_mem inner.value_mem
    have ha : (key a == key s.value) = false := by
      refine beq_false_of_ne fun he => hroot ?_
      rw [he, List.flatMap_append, List.flatMap_cons, List.map_append, List.map_append]
      exact List.mem_append_right _ (List.mem_append_left _ hmem)
    have hbefore : ∀ v ∈ before, (v.subtree? fun a => key a == key s.value) = none := by
      intro v hv
      refine subtree?_eq_none fun b hb => beq_false_of_ne ?_
      exact hapart _ (List.mem_map_of_mem (List.mem_flatMap_of_mem hv hb)) _
        (List.mem_append_left _ hmem)
    have hfound := ih (List.nodup_append.mp hfrom).1
    rw [subtree?, if_neg (by simp [ha]), firstSubtree?_eq, List.findSome?_append,
      List.findSome?_eq_none_iff.mpr hbefore, Option.none_or, List.findSome?_cons, hfound]

end Tree

namespace ClassTree

theorem orderFrom_node (n : ClassNode) (ts : List (Tree ClassNode)) :
    orderFrom (.node n ts) =
      (ts.filter fun t => t.value.decl.holdsSwitchTables).flatMap orderFrom ++
        n :: (ts.filter fun t => !t.value.decl.holdsSwitchTables).flatMap orderFrom := by
  rw [orderFrom, orderWhere_eq, orderWhere_eq]
  simp only [beq_true, beq_false]

theorem perm_orderFrom (t : Tree ClassNode) : (orderFrom t).Perm t.toList := by
  induction t with
  | node n ts ih =>
    have hparts := (List.filter_append_perm (fun t : Tree ClassNode => t.value.decl.holdsSwitchTables)
      ts).flatMap_right orderFrom
    rw [List.flatMap_append] at hparts
    rw [orderFrom_node, Tree.toList_node]
    exact List.perm_middle.trans ((hparts.trans (List.Perm.flatMap_left ts ih)).cons n)

/-- A subtree is listed without a gap. -/
theorem orderFrom_within {s t : Tree ClassNode} (h : s.Inside t) : orderFrom s <:+: orderFrom t := by
  induction h with
  | refl => exact List.infix_rfl
  | @deeper u n ts mem _ ih =>
    refine ih.trans ?_
    rw [orderFrom_node]
    by_cases hfirst : u.value.decl.holdsSwitchTables = true
    · exact (infix_flatMap_of_mem (List.mem_filter.mpr ⟨mem, hfirst⟩)).trans
        (List.prefix_append _ _).isInfix
    · have hrest : u ∈ ts.filter fun t => !t.value.decl.holdsSwitchTables :=
        List.mem_filter.mpr ⟨mem, by simpa using hfirst⟩
      exact ((infix_flatMap_of_mem hrest).trans (List.suffix_cons _ _).isInfix).trans
        (List.suffix_append _ _).isInfix

/-- The numbers of the nodes in the subtree at a node, in the order of preparation. -/
def block (t : ClassTree) (id : Nat) : List Nat :=
  ((t.subtree? id).map fun s => (orderFrom s).map (·.id)).getD []

def isHolder (t : ClassTree) (id : Nat) : Bool :=
  (t.rows[id]?).any fun r => r.value.decl.holdsSwitchTables

theorem Holds.inside {t : ClassTree} {s u : Tree ClassNode} (h : t.Holds u) (hs : s.Inside u) :
    t.Holds s := by
  induction hs with
  | refl => exact h
  | deeper mem _ ih => exact ih (h.child mem)

section Blocks

variable {t : ClassTree} (h : t.Indexed)

include h

theorem Indexed.subtree?_inside {s : Tree ClassNode} (hs : s.Inside t.tree) :
    t.subtree? s.value.id = some s :=
  hs.subtree?_eq h.nodup

theorem Indexed.block_eq {s : Tree ClassNode} (hs : s.Inside t.tree) :
    t.block s.value.id = (orderFrom s).map (·.id) := by
  rw [block, h.subtree?_inside hs]
  rfl

theorem Indexed.isHolder_eq {s : Tree ClassNode} (hs : s.Inside t.tree) :
    t.isHolder s.value.id = s.value.decl.holdsSwitchTables := by
  obtain ⟨r, hr, hvalue, _⟩ := (t.holds_tree.inside hs).row h
  rw [isHolder, hr, Option.any_some, hvalue]

theorem Indexed.exists_inside {i : Nat} (hi : i < t.size) :
    ∃ n ts, (Tree.node n ts).Inside t.tree ∧ n.id = i ∧ t.childIds i = ts.map (·.value.id) := by
  obtain ⟨r, hr⟩ := h.exists_row hi
  obtain ⟨hm, rfl⟩ := h.row_at_iff.mp hr
  obtain ⟨n, ts, hin, hvalue, hchildren⟩ := Tree.exists_inside_of_row (mem_rows_iff.mp hm)
  refine ⟨n, ts, hin, congrArg ClassNode.id hvalue.symm, ?_⟩
  rw [h.childIds_eq hm, hchildren, List.map_map]
  rfl

theorem Indexed.block_childIds {n : ClassNode} {ts : List (Tree ClassNode)}
    (hin : (Tree.node n ts).Inside t.tree) (p : Bool → Bool) :
    ((ts.map (·.value.id)).filter fun c => p (t.isHolder c)).flatMap t.block =
      ((ts.filter fun s => p s.value.decl.holdsSwitchTables).flatMap orderFrom).map (·.id) := by
  have hfilter : ((fun c => p (t.isHolder c)) ∘ fun s : Tree ClassNode => s.value.id) =
      fun s => p (t.isHolder s.value.id) := rfl
  rw [List.filter_map, hfilter, List.flatMap_map, List.map_flatMap]
  have hsame : (ts.filter fun s => p (t.isHolder s.value.id)) =
      ts.filter fun s => p s.value.decl.holdsSwitchTables :=
    List.filter_congr fun s hs => by rw [h.isHolder_eq (hin.child hs)]
  rw [hsame]
  exact List.flatMap_congr fun s hs => h.block_eq (hin.child (List.mem_filter.mp hs).1)

theorem Indexed.block_node {i : Nat} (hi : i < t.size) :
    t.block i = ((t.childIds i).filter fun c => t.isHolder c).flatMap t.block ++
      i :: ((t.childIds i).filter fun c => !t.isHolder c).flatMap t.block := by
  obtain ⟨n, ts, hin, rfl, hchildren⟩ := h.exists_inside hi
  have hblock : t.block n.id = (orderFrom (.node n ts)).map (·.id) := h.block_eq hin
  rw [hchildren, hblock, orderFrom_node, List.map_append, List.map_cons,
    h.block_childIds hin fun b => b, h.block_childIds hin fun b => !b]

theorem Indexed.block_within {i : Nat} (hi : i < t.size) :
    t.block i <:+: t.preparationOrder.map (·.id) := by
  obtain ⟨n, ts, hin, rfl, _⟩ := h.exists_inside hi
  have hblock : t.block n.id = (orderFrom (.node n ts)).map (·.id) := h.block_eq hin
  rw [hblock]
  exact (orderFrom_within hin).map _

theorem Indexed.order_perm : (t.preparationOrder.map (·.id)).Perm (List.range t.size) :=
  ((perm_orderFrom t.tree).map _).trans h.ids

/-- A block holds the nodes from which the way up leads to its node. -/
theorem Indexed.mem_block_iff {i c : Nat} (hc : c < t.size) :
    i ∈ t.block c ↔ Relation.ReflTransGen (fun a b => t.parent? a = some b) i c := by
  obtain ⟨n, ts, hin, rfl, _⟩ := h.exists_inside hc
  have hblock : t.block n.id = (orderFrom (.node n ts)).map (·.id) := h.block_eq hin
  have hmem : ∀ i, i ∈ t.block n.id ↔ ∃ m ∈ (Tree.node n ts).toList, m.id = i := by
    intro i
    rw [hblock, List.mem_map]
    simp only [(perm_orderFrom _).mem_iff]
  obtain ⟨parent, depth, hrows⟩ := t.holds_tree.inside hin
  rw [hmem]
  constructor
  · rintro ⟨m, hm, rfl⟩
    obtain ⟨r, hr, rfl⟩ := Tree.exists_row parent depth hm
    exact h.reaches_value hrows hr
  · intro hup
    clear hmem
    induction hup using Relation.ReflTransGen.head_induction_on with
    | refl => exact ⟨n, Tree.value_mem_toList _, rfl⟩
    | @head i p hp _ ih =>
      obtain ⟨q, hq, rfl⟩ := ih
      obtain ⟨s, hs, rfl⟩ := Tree.exists_row parent depth hq
      have hchild := h.mem_childIds_iff_parent?.mpr hp
      rw [h.childIds_eq (mem_rows_iff.mpr (hrows s hs))] at hchild
      obtain ⟨m, hm, rfl⟩ := List.mem_map.mp hchild
      obtain ⟨r, hr, rfl, _⟩ := Tree.child_row hs hm
      exact ⟨r.value, Tree.row_value_mem hr, rfl⟩

end Blocks

theorem values_sublist (ts : List (Tree ClassNode)) :
    (ts.map Tree.value).Sublist (ts.flatMap orderFrom) := by
  induction ts with
  | nil => exact .slnil
  | cons t ts ih =>
    have hvalue : t.value ∈ orderFrom t :=
      (perm_orderFrom t).mem_iff.mpr (Tree.value_mem_toList t)
    rw [List.map_cons, List.flatMap_cons, ← List.singleton_append]
    exact (List.singleton_sublist.mpr hvalue).append ih

theorem family_sublist {t : ClassTree} {r : Tree.Row ClassNode} (hr : r ∈ t.rows) :
    ((r.children.filter fun c => c.decl.holdsSwitchTables) ++
      r.value :: r.children.filter fun c => !c.decl.holdsSwitchTables).Sublist
        t.preparationOrder := by
  obtain ⟨n, ts, hin, hvalue, hchildren⟩ := Tree.exists_inside_of_row (mem_rows_iff.mp hr)
  refine .trans ?_ (orderFrom_within hin).sublist
  rw [orderFrom_node, hvalue, hchildren, List.filter_map, List.filter_map]
  exact (values_sublist _).append ((values_sublist _).cons_cons n)

theorem family_decls_sublist {t : ClassTree} {r : Tree.Row ClassNode} (hr : r ∈ t.rows)
    (hclass : r.value.isLambda = false) :
    let classes := r.children.filter fun c => !c.isLambda
    (((classes.filter fun c => c.decl.holdsSwitchTables) ++
      r.value :: classes.filter fun c => !c.decl.holdsSwitchTables).map (·.decl)).Sublist
        t.preparedClasses := by
  have hsub := ((family_sublist hr).filter fun c => !c.isLambda).map ClassNode.decl
  have hswap : ∀ p : ClassNode → Bool, ((r.children.filter p).filter fun c => !c.isLambda) =
      (r.children.filter fun c => !c.isLambda).filter p := fun p => List.filter_comm _ p _
  rw [List.filter_append, List.filter_cons, hclass, Bool.not_false, if_pos rfl, hswap, hswap] at hsub
  exact hsub

section Grown

variable {t s : ClassTree} (h : t.GrownFrom (· = .lambda) s)

include h

theorem GrownFrom.isLambda_of_le (ht : t.Bare) {n : ClassNode} (hn : n ∈ s.nodes)
    (hid : t.built ≤ n.id) : n.isLambda = true := by
  obtain ⟨added, hnodes, hadded, _⟩ := h.added
  rcases List.mem_append.mp (hnodes.mem_iff.mp hn) with hn | hn
  · rw [ClassNode.isLambda, (hadded n hn).2]
    rfl
  · have := ht.id_lt n hn
    omega

theorem GrownFrom.isLambda_of_lt (hclass : ∀ n ∈ t.nodes, n.isLambda = false) {n : ClassNode}
    (hn : n ∈ s.nodes) (hid : n.id < t.built) : n.isLambda = false := by
  obtain ⟨added, hnodes, hadded, _⟩ := h.added
  rcases List.mem_append.mp (hnodes.mem_iff.mp hn) with hn | hn
  · have := (hadded n hn).1
    omega
  · exact hclass n hn

/-- No class lies below a lambda. -/
theorem GrownFrom.isLambda_child (ht : t.Bare) (hclass : ∀ n ∈ t.nodes, n.isLambda = false)
    {r : Tree.Row ClassNode} (hr : r ∈ s.rows) (hlambda : r.value.isLambda = true) {c : ClassNode}
    (hc : c ∈ r.children) : c.isLambda = true := by
  obtain ⟨q, hq, rfl, hparent⟩ := Tree.child_row (mem_rows_iff.mp hr) hc
  have hq := mem_rows_iff.mpr hq
  refine h.isLambda_of_le ht (mem_nodes_of_mem_rows hq) (Nat.le_of_not_lt fun hid => ?_)
  have habove := h.below q hq hid r.value hparent
  rw [h.isLambda_of_lt hclass (mem_nodes_of_mem_rows hr) habove] at hlambda
  contradiction

theorem GrownFrom.preparedClasses_perm (hclass : ∀ n ∈ t.nodes, n.isLambda = false) :
    s.preparedClasses.Perm (t.nodes.map (·.decl)) := by
  obtain ⟨added, hnodes, hadded, _⟩ := h.added
  have hnone : (added.filter fun n => !n.isLambda) = [] := by
    refine List.filter_eq_nil_iff.mpr fun n hn => ?_
    rw [ClassNode.isLambda, (hadded n hn).2]
    decide
  have hall : (t.nodes.filter fun n => !n.isLambda) = t.nodes :=
    List.filter_eq_self.mpr fun n hn => by rw [hclass n hn, Bool.not_false]
  have hperm := ((perm_orderFrom s.tree).trans hnodes).filter fun n => !n.isLambda
  rw [List.filter_append, hnone, hall, List.nil_append] at hperm
  exact hperm.map _

end Grown

end ClassTree

/-- However lambdas are added to a tree of a built forest, every node is made ready once. The subtree
at a node is one block of the order, and it consists of the blocks of children with switch tables, the
node, and the blocks of the other children. So every class of the tree is handed out once, after its
children that hold switch tables and before the others. -/
theorem Forest.prepared_in_blocks (l : Library) (o : Options) (policy : Renaming) {t : ClassTree}
    (ht : t ∈ (build l o policy).1.trees) {as : List Addition} (has : t.Fits as)
    (hlambda : ∀ a ∈ as, a.kind = .lambda) :
    let s := t.addAll as
    let order := s.preparationOrder.map (·.id)
    order.Perm (List.range s.size) ∧
      (∃ block : Nat → List Nat, order = block 0 ∧ ∀ n < s.size,
        block n <:+: order ∧
        (∀ i, i ∈ block n ↔ Relation.ReflTransGen (fun a b => s.parent? a = some b) i n) ∧
        block n = ((s.childIds n).filter fun c => s.isHolder c).flatMap block ++
          n :: ((s.childIds n).filter fun c => !s.isHolder c).flatMap block) ∧
      (s.preparedClasses.Perm (t.nodes.map (·.decl)) ∧ (s.preparedClasses.map (·.name)).Nodup) ∧
      ∀ r ∈ s.rows,
        let classes := r.children.filter fun c => !c.isLambda
        if r.value.isLambda then classes = []
        else (((classes.filter fun c => c.decl.holdsSwitchTables) ++
          r.value :: classes.filter fun c => !c.decl.holdsSwitchTables).map (·.decl)).Sublist
            s.preparedClasses := by
  intro s order
  have hgrown : t.GrownFrom (· = .lambda) s := grownFrom_build ht has hlambda
  have hindexed := hgrown.indexed
  have hdistinct := distinct_build l o policy
  have hbare := hdistinct.bare t ht
  have hstands := stands_build (Library.worded_any l) o (Renaming.worded_any policy) t ht
  have hclass : ∀ n ∈ t.nodes, n.isLambda = false := fun n hn => (hstands n hn).isLambda_eq
  have hprepared := hgrown.preparedClasses_perm hclass
  refine ⟨hindexed.order_perm, ⟨s.block, ?_, fun n hn => ⟨hindexed.block_within hn,
    fun i => hindexed.mem_block_iff hn, hindexed.block_node hn⟩⟩, ⟨hprepared, ?_⟩, fun r hr => ?_⟩
  · have hroot := hindexed.block_eq .refl
    rw [show s.tree.value.id = 0 from hindexed.root_id] at hroot
    exact hroot.symm
  · have hnames : (t.nodes.map (·.decl)).map (·.name) = t.names := by
      rw [List.map_map]
      exact List.map_congr_left fun n hn => (hstands n hn).name_eq.symm
    rw [(hprepared.map _).nodup_iff, hnames]
    exact (List.nodup_flatMap.mp hdistinct.nodup).1 t ht
  · intro classes
    split
    next hlam =>
      refine List.filter_eq_nil_iff.mpr fun c hc => ?_
      rw [hgrown.isLambda_child hbare hclass hr hlam hc]
      decide
    next hlam => exact ClassTree.family_decls_sublist hr (Bool.eq_false_iff.mpr hlam)

def switchHost : Library :=
  .ofList [
    { name := "a/O", access := .publicFlag
      nesting := some [{ inner := "a/O$A", outer := some "a/O", simpleName := some "A" },
        { inner := "a/O$S", outer := some "a/O", simpleName := some "S" }] },
    { name := "a/O$A" },
    { name := "a/O$S", synthetic := true
      fields := [{ name := "cases", descriptor := "[I", synthetic := true
                   access := AccessFlags.staticFlag.union .finalFlag }]
      methods := [{ name := "<clinit>", descriptor := "()V", access := .staticFlag }] }]

/-- A lambda of the root and one of the class that holds switch tables. -/
def twoLambdas : List Addition := [.lambda 0 0 runSite, .lambda 2 0 runSite]

theorem prepared_in_blocks_switches :
    ∃ t ∈ (Forest.build switchHost {} .keep).1.trees, t.Fits twoLambdas ∧
      (∀ a ∈ twoLambdas, a.kind = .lambda) ∧
      let s := t.addAll twoLambdas
      s.preparationOrder.map (·.id) = [4, 2, 0, 3, 1] ∧
        (s.preparationOrder.map (·.id)).Perm (List.range s.size) ∧
        s.preparedClasses.map (·.name) = ["a/O$S", "a/O", "a/O$A"] ∧
        s.preparedClasses.Perm (t.nodes.map (·.decl)) := by
  have hfound : ((Forest.build switchHost {} .keep).1.trees.any fun t =>
      (t.nodes.map (·.id)).contains 0 &&
        ((t.add (.lambda 0 0 runSite)).nodes.map (·.id)).contains 2 &&
        (t.addAll twoLambdas).preparationOrder.map (·.id) == [4, 2, 0, 3, 1] &&
        (t.addAll twoLambdas).preparedClasses.map (·.name) == ["a/O$S", "a/O", "a/O$A"]) = true := by
    simp only [Forest.build, Forest.ofLinks, Ground.nest, Ground.unclaimed,
      sortByKey_eq_insertionSort]
    decide +kernel
  obtain ⟨t, ht, hchecks⟩ := List.any_eq_true.mp hfound
  simp only [Bool.and_eq_true, List.contains_iff_mem, beq_iff_eq] at hchecks
  obtain ⟨⟨⟨hfirst, hsecond⟩, hids⟩, hnames⟩ := hchecks
  have hfits : t.Fits twoLambdas := ⟨hfirst, hsecond, trivial⟩
  have hlambda : ∀ a ∈ twoLambdas, a.kind = .lambda := by decide
  obtain ⟨hperm, -, ⟨hclasses, -⟩, -⟩ :=
    Forest.prepared_in_blocks switchHost {} .keep ht hfits hlambda
  exact ⟨t, ht, hfits, hlambda, hids, hperm, hnames, hclasses⟩

end ClassSketch
