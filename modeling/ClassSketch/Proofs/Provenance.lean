import ClassSketch.Proofs.Bodies
import ClassSketch.Proofs.Files
import ClassSketch.Proofs.Partition

/-! Where the texts of a forest come from. A node stands for a class of the library; what it adds to
the texts of the class is a name out of some nesting entry, or one that the policy gave instead. All
of this is still so after any number of files have been written. -/

namespace ClassSketch

open Text (Within)

/-- The texts of a library: its classes, the names in their nesting entries, and what is pooled. -/
structure Library.Worded (w : Wording) (l : Library) : Prop where
  classes : ∀ c ∈ l.classes, w.Holds c.texts
  entries : ∀ c ∈ l.classes, ∀ e ∈ c.nestingEntries, w.Holds e.simpleName.toList
  pool : ∀ name s, (name, some s) ∈ l.pool → s.Worded w

theorem Library.worded_any (l : Library) : l.Worded .any :=
  ⟨fun _ _ _ _ _ _ => trivial, fun _ _ _ _ _ _ _ _ => trivial, fun _ s _ => s.worded_any⟩

def Renaming.Worded (w : Wording) : Renaming → Prop
  | .custom rule _ => ∀ asked inner simple s, rule asked inner simple = some s → Within w.letter s
  | _ => True

theorem Renaming.worded_any (r : Renaming) : r.Worded .any := by
  cases r with
  | custom rule asked => exact fun _ _ _ _ _ _ _ => trivial
  | keep => trivial
  | numbered last => trivial

section Names

theorem ClaimTable.mem_settle {claim d : Claim} {ds : List Claim} (h : d ∈ settle claim ds) :
    d = claim ∨ d ∈ ds := by
  induction ds with
  | nil => exact .inl (List.mem_singleton.mp h)
  | cons e ds ih =>
    rw [settle] at h
    split at h
    · rcases List.mem_cons.mp h with rfl | h
      · split
        · exact .inl rfl
        · exact .inr List.mem_cons_self
      · exact .inr (List.mem_cons_of_mem _ h)
    · rcases List.mem_cons.mp h with rfl | h
      · exact .inr List.mem_cons_self
      · exact (ih h).imp_right (List.mem_cons_of_mem _)

theorem Ground.entryKind_ne_lambda (g : Ground) (e : NestingEntry) : g.entryKind e ≠ .lambda := by
  rw [entryKind]
  split
  · nofun
  · split
    · nofun
    · split <;> nofun

variable {w : Wording}

theorem Renaming.Worded.rename {r : Renaming} (h : r.Worded w) (inner : String) {simple : String}
    (hs : Within w.letter simple) :
    Within w.letter (r.rename inner simple).1 ∧ (r.rename inner simple).2.Worded w := by
  rw [Renaming.rename]
  split
  · cases r with
    | keep => exact ⟨hs, trivial⟩
    | numbered last =>
      exact ⟨Text.within_append.mpr ⟨w.fixed (by decide), w.within_toString (last + 1 : Nat)⟩, trivial⟩
    | custom rule asked =>
      refine ⟨?_, h⟩
      rw [Renaming.next]
      cases hr : rule asked inner simple with
      | none => exact hs
      | some s => exact h asked inner simple s hr
  · cases r with
    | keep => exact ⟨hs, trivial⟩
    | numbered last => exact ⟨hs, trivial⟩
    | custom rule asked => exact ⟨hs, h⟩

structure Census.Worded (w : Wording) (c : Census) : Prop where
  policy : c.policy.Worded w
  names : ∀ inner name, c.names.lookup inner = some name → Within w.letter name
  claims : ∀ claim ∈ c.table.settled, claim.kind ≠ .lambda ∧
    w.Holds (claim.simpleName.toList ++ claim.renamedFrom.toList)

namespace Census.Worded

variable {c : Census}

theorem chooseName (h : c.Worded w) (inner : String) {simple : String}
    (hs : Within w.letter simple) :
    Within w.letter (c.chooseName inner simple).1 ∧ (c.chooseName inner simple).2.Worded w := by
  rw [Census.chooseName]
  cases hn : c.names.lookup inner with
  | some name => exact ⟨h.names inner name hn, h⟩
  | none =>
    obtain ⟨hname, hpolicy⟩ := h.policy.rename inner hs
    refine ⟨hname, hpolicy, fun other name hl => ?_, h.claims⟩
    rw [List.lookup_cons] at hl
    split at hl
    · exact Option.some.inj hl ▸ hname
    · exact h.names other name hl

theorem add (h : c.Worded w) (warn : Bool) {claim : Claim} (hkind : claim.kind ≠ .lambda)
    (hnames : w.Holds (claim.simpleName.toList ++ claim.renamedFrom.toList)) :
    (c.add warn claim).Worded w := by
  refine ⟨h.policy, h.names, fun d hd => ?_⟩
  rcases ClaimTable.mem_settle hd with rfl | hd
  · exact ⟨hkind, hnames⟩
  · exact h.claims d hd

theorem readEntry (h : c.Worded w) (g : Ground) (source : String) {e : NestingEntry}
    (he : w.Holds e.simpleName.toList) : (readEntry g source c e).Worded w := by
  have hkind := g.entryKind_ne_lambda e
  cases hs : e.simpleName with
  | none =>
    simp only [Census.readEntry, hs]
    split
    · exact h
    · exact h.add _ hkind (by simp [Wording.Holds])
  | some simple =>
    rw [hs] at he
    have hsimple : Within w.letter simple := he simple (by simp)
    obtain ⟨hname, hc⟩ := h.chooseName e.inner hsimple
    simp only [Census.readEntry, hs]
    generalize c.chooseName e.inner simple = r at hname hc ⊢
    split
    · exact hc
    · refine hc.add _ hkind fun s hmem => ?_
      rcases List.mem_append.mp hmem with hmem | hmem
      · obtain rfl : s = r.1 := by simpa using hmem
        exact hname
      · split at hmem
        · cases hmem
        · exact he s hmem

end Census.Worded

theorem Census.worded_take {l : Library} (hl : l.Worded w) (o : Options) {policy : Renaming}
    (hp : policy.Worded w) : (Census.take (.ofLibrary l o) policy).Worded w := by
  have hstart : ({ policy } : Census).Worded w := ⟨hp, nofun, nofun⟩
  refine List.foldlRecOn (motive := Census.Worded w) _ _ hstart fun c hc d hd => ?_
  have hmem : d ∈ l.classes := (List.mem_filter.mp (List.mem_filter.mp hd).1).1
  exact List.foldlRecOn (motive := Census.Worded w) _ _ hc fun c hc e he =>
    hc.readEntry _ _ (hl.entries d hmem e he)

end Names

/-- A node stands for a class of the library, with texts over the alphabet. -/
structure ClassNode.Stands (w : Wording) (l : Library) (n : ClassNode) : Prop where
  decl_mem : n.decl ∈ l.classes
  name_eq : n.name = n.decl.name
  isLambda_eq : n.isLambda = false
  lambda_eq : n.lambda = none
  texts : w.Holds n.texts

theorem ClassNode.Stands.update {w : Wording} {l : Library} {n : ClassNode} (h : n.Stands w l)
    (id : Nat) (failed : Bool) : ({ n with id, failed } : ClassNode).Stands w l :=
  ⟨h.decl_mem, h.name_eq, h.isLambda_eq, h.lambda_eq, h.texts⟩

namespace Forest

variable {w : Wording} {l : Library}

theorem stands_ofDecl (hl : l.Worded w) {c : ClassDecl} (hc : c ∈ l.classes) :
    (ClassNode.ofDecl c).Stands w l := by
  refine ⟨hc, rfl, rfl, rfl, fun s hs => ?_⟩
  have hname : Within w.letter c.name := c.name_holds (hl.classes c hc)
  simp only [ClassNode.texts, ClassNode.ofDecl, Option.toList_some, Option.toList_none,
    List.append_nil, List.mem_cons, List.mem_append, List.not_mem_nil, or_false] at hs
  rcases hs with (rfl | rfl) | hs
  · exact hname
  · exact Name.within_simple hname
  · exact hl.classes c hc s hs

theorem stands_linkUnder (hl : l.Worded w) (o : Options) {t : ClaimTable}
    (hclaims : ∀ claim ∈ t.settled, claim.kind ≠ .lambda ∧
      w.Holds (claim.simpleName.toList ++ claim.renamedFrom.toList))
    (parent : ClassDecl) {child : ClassDecl} (hc : child ∈ l.classes) {claim : Claim}
    (hclaim : t.claim? child.name = some claim) :
    ((Ground.ofLibrary l o).linkUnder t parent child claim).child.Stands w l := by
  obtain ⟨hkind, hnames⟩ := hclaims claim (List.mem_of_find?_eq_some hclaim)
  refine ⟨hc, rfl, ?_, rfl, fun s hs => ?_⟩
  · have hne : (Ground.ofLibrary l o).kindUnder parent child claim ≠ .lambda := by
      rw [Ground.kindUnder]
      split
      · exact fun h => by cases h
      · exact hkind
    exact beq_false_of_ne hne
  · have hmem : s = child.name ∨ s ∈ claim.simpleName.toList ++ claim.renamedFrom.toList ∨
        s ∈ child.texts := by
      simpa [ClassNode.texts, Ground.linkUnder, ClassNode.ofClaim, ClassNode.ofDecl, or_assoc]
        using hs
    rcases hmem with rfl | hs | hs
    · exact child.name_holds (hl.classes child hc)
    · exact hnames s hs
    · exact hl.classes child hc s hs

theorem stands_build (hl : l.Worded w) (o : Options) {policy : Renaming} (hp : policy.Worded w) :
    ∀ t ∈ (build l o policy).1.trees, ∀ n ∈ t.nodes, n.Stands w l := by
  have hground : ∀ c ∈ (Ground.ofLibrary l o).classes, c ∈ l.classes :=
    fun c hc => (List.mem_filter.mp (List.mem_filter.mp hc).1).1
  have hall : ∀ (t : ClaimTable) (walk : Walk), walk.Sound (.ofLibrary l o) t →
      (∀ claim ∈ t.settled, claim.kind ≠ .lambda ∧
        w.Holds (claim.simpleName.toList ++ claim.renamedFrom.toList)) →
      ∀ tree ∈ (ofLinks (Ground.ofLibrary l o).classes walk.links).trees,
        ∀ n ∈ tree.nodes, n.Stands w l := by
    intro t walk hs hclaims tree htree n hn
    obtain ⟨s, rfl⟩ := ofLinks_numbered _ _ tree htree
    obtain ⟨r, hr, rfl⟩ := Tree.exists_row none 0 hn
    rw [← ClassTree.rows_ofTree] at hr
    rcases (row_ofLinks hs.linked_unplaced htree hr).2 with
      ⟨_, c, hc, _, hv⟩ | ⟨_, link, hlink, _, hv, _⟩
    · have hstands := stands_ofDecl hl (hground c hc)
      rw [← hv] at hstands
      exact hstands.update r.value.id r.value.failed
    · obtain ⟨parent, _, child, hchild, claim, hclaim, _, rfl⟩ := hs.proper link hlink
      have hstands := stands_linkUnder hl o hclaims parent (hground child hchild) hclaim
      have hbare : r.value.unnumbered.Stands w l := by
        rw [hv]
        exact hstands.update 0 _
      exact hbare.update r.value.id r.value.failed
  rw [build]
  split
  · exact hall _ _ (Walk.sound_nest _ _) (Census.worded_take hl o hp).claims
  · exact hall {} {} (Walk.sound_empty _ _) fun _ h => by cases h

end Forest

section Sprouted

variable {σ : Type} {w : Wording} {l : Library} {t : ClassTree}

theorem ClassTree.root_sprouted (t : ClassTree) (r : Renderer σ) :
    (t.sprouted r).root = { t.root with failed := false } := by
  have hroot : t.clearFailures.tree.value = { t.root with failed := false } :=
    Tree.value_map _ _
  refine List.foldlRecOn (motive := fun s : ClassTree => s.root = _) _ _ hroot fun s hs home _ => ?_
  exact List.foldlRecOn (motive := fun s : ClassTree => s.root = _) _ _ hs fun s hs site _ =>
    (Tree.value_modifyChildren _ _ _).trans hs

/-- Apart from lambdas, nothing is added. -/
theorem ClassTree.mem_of_mem_sprouted {r : Renderer σ} {n : ClassNode}
    (hn : n ∈ (t.sprouted r).nodes) (hlambda : n.isLambda = false) : n ∈ t.clearFailures.nodes := by
  obtain ⟨added, hperm, hadded⟩ := t.clearFailures.sprouts_discoverLambdas r
  rcases List.mem_append.mp (hperm.mem_iff.mp hn) with hn | hn
  · obtain ⟨home, _, i, site, id, rfl⟩ := hadded n hn
    cases hlambda
  · exact hn

theorem ClassTree.nodup_plain_sprouted (hnd : t.names.Nodup) (r : Renderer σ) :
    (((t.sprouted r).nodes.filter fun n => !n.isLambda).map (·.name)).Nodup := by
  obtain ⟨added, hperm, hadded⟩ := t.clearFailures.sprouts_discoverLambdas r
  have hnone : added.filter (fun n => !n.isLambda) = [] := by
    rw [List.filter_eq_nil_iff]
    intro n hn
    obtain ⟨home, _, i, site, id, rfl⟩ := hadded n hn
    exact Bool.false_ne_true
  have hplain := hperm.filter fun n => !n.isLambda
  rw [List.filter_append, hnone, List.nil_append] at hplain
  have hnames : (t.clearFailures.nodes.map (·.name)).Nodup := by
    rw [nodes, clearFailures, Tree.toList_map, List.map_map]
    exact hnd
  exact ((hplain.map _).nodup_iff).mpr (hnames.sublist (List.filter_sublist.map _))

theorem ClassTree.texts_sprouted (ht : ∀ n ∈ t.nodes, n.Stands w l) (r : Renderer σ) :
    ∀ n ∈ (t.sprouted r).nodes, w.Holds n.texts := by
  have hclear : ∀ n ∈ t.clearFailures.nodes, n.Stands w l := by
    intro n hn
    rw [nodes, clearFailures, Tree.toList_map] at hn
    obtain ⟨m, hm, rfl⟩ := List.mem_map.mp hn
    exact (ht m hm).update m.id false
  obtain ⟨added, hperm, hadded⟩ := t.clearFailures.sprouts_discoverLambdas r
  intro n hn
  rcases List.mem_append.mp (hperm.mem_iff.mp hn) with hn | hn
  · obtain ⟨home, hhome, i, site, id, rfl⟩ := hadded n hn
    have hdecl : w.Holds home.decl.texts := home.decl_holds (hclear home hhome).texts
    have hname : Within w.letter (home.decl.name ++ "##Lambda_" ++ toString i) :=
      Text.within_append.mpr ⟨Text.within_append.mpr ⟨home.decl.name_holds hdecl,
        w.fixed (by decide)⟩, w.within_toString i⟩
    intro s hs
    rcases List.mem_cons.mp hs with rfl | hs
    · exact hname
    · exact hdecl s hs
  · exact (hclear n hn).texts

/-- Also the nodes that are added stand for classes of the library. -/
theorem ClassTree.decl_mem_sprouted (ht : ∀ n ∈ t.nodes, n.Stands w l) (r : Renderer σ) :
    ∀ n ∈ (t.sprouted r).nodes, n.decl ∈ l.classes := by
  have hclear : ∀ n ∈ t.clearFailures.nodes, n.decl ∈ l.classes := by
    intro n hn
    rw [nodes, clearFailures, Tree.toList_map] at hn
    obtain ⟨m, hm, rfl⟩ := List.mem_map.mp hn
    exact (ht m hm).decl_mem
  obtain ⟨added, hperm, hadded⟩ := t.clearFailures.sprouts_discoverLambdas r
  intro n hn
  rcases List.mem_append.mp (hperm.mem_iff.mp hn) with hn | hn
  · obtain ⟨home, hhome, i, site, id, rfl⟩ := hadded n hn
    exact hclear home hhome
  · exact hclear n hn

/-- Below the root only members are written. -/
theorem TypeSketch.emitted_shown (k : Kit σ) (level : Nat) (t : Tree ClassNode) :
    ∀ e ∈ emitted k level t, e.node = t.value ∨ e.node.kind = .member := by
  induction t generalizing level with
  | node n ts ih =>
    have hall : ∀ hidden level, ∀ e ∈ emittedAll k hidden level ts, e.node.kind = .member := by
      intro hidden level
      induction ts with
      | nil => exact fun e he => absurd he (by simp [emittedAll])
      | cons t ts ihs =>
        have hts := ihs fun t ht => ih t (List.mem_cons_of_mem _ ht)
        intro e he
        rw [emittedAll] at he
        split at he
        · next hshown =>
          have hmember : t.value.kind = .member := by
            simp only [isShownMember, Bool.and_eq_true, beq_iff_eq] at hshown
            exact hshown.1.1
          rcases List.mem_append.mp he with he | he
          · rcases ih t List.mem_cons_self level e he with heq | hkind
            · exact heq ▸ hmember
            · exact hkind
          · exact hts e he
        · exact hts e he
    intro e he
    rw [emitted] at he
    split at he
    · cases he
    · rcases List.mem_cons.mp he with rfl | he
      · exact .inl rfl
      · exact .inr (hall _ _ e he)

theorem ClassTree.stands_emitted (ht : ∀ n ∈ t.nodes, n.Stands w l) (k : Kit σ) :
    ∀ e ∈ TypeSketch.emitted k 0 (t.sprouted k.renderer).tree, e.node.Stands w l := by
  intro e he
  have hlambda : e.node.isLambda = false := by
    rcases TypeSketch.emitted_shown k 0 _ e he with heq | hkind
    · have hroot := t.root_sprouted k.renderer
      rw [ClassTree.root] at hroot
      rw [heq, hroot]
      exact (ht t.root (Tree.value_mem_toList _)).isLambda_eq
    · rw [ClassNode.isLambda, hkind]
      rfl
  have hsub := TypeSketch.emitted_sublist k 0 (t.sprouted k.renderer).tree
  have hn := mem_of_mem_sprouted (hsub.mem (List.mem_map_of_mem he)) hlambda
  rw [nodes, clearFailures, Tree.toList_map] at hn
  obtain ⟨m, hm, hmn⟩ := List.mem_map.mp hn
  exact hmn ▸ (ht m hm).update m.id false

theorem ClassTree.nodup_emitted (hnd : t.names.Nodup) (ht : ∀ n ∈ t.nodes, n.Stands w l)
    (k : Kit σ) : ((TypeSketch.emitted k 0 (t.sprouted k.renderer).tree).map
      (·.node.decl.name)).Nodup := by
  have hstands := stands_emitted ht k
  have hsub := TypeSketch.emitted_sublist k 0 (t.sprouted k.renderer).tree
  generalize TypeSketch.emitted k 0 (t.sprouted k.renderer).tree = es at hstands hsub ⊢
  have hplain : (es.map (·.node)).filter (fun n => !n.isLambda) = es.map (·.node) := by
    rw [List.filter_eq_self]
    intro n hn
    obtain ⟨e, he, rfl⟩ := List.mem_map.mp hn
    rw [(hstands e he).isLambda_eq]
    rfl
  have hnames := hsub.filter fun n => !n.isLambda
  rw [hplain] at hnames
  have hdecls : es.map (·.node.decl.name) = (es.map (·.node)).map (·.name) := by
    rw [List.map_map]
    exact List.map_congr_left fun e he => (hstands e he).name_eq.symm
  rw [hdecls]
  exact (nodup_plain_sprouted hnd k.renderer).sublist (hnames.map _)

/-- What a method is filed under. -/
def Visit.key (v : Visit) : String × String := (v.node.decl.name, v.method.key)

/-- No two methods of a file are filed under the same key. -/
theorem Kit.nodup_fileVisits (hnd : t.names.Nodup) (ht : ∀ n ∈ t.nodes, n.Stands w l)
    (hkeys : ∀ c ∈ l.classes, (c.methods.map (·.key)).Nodup) (k : Kit σ) :
    ((k.fileVisits t).map Visit.key).Nodup := by
  have hstands := ClassTree.stands_emitted ht k
  have hnodup := ClassTree.nodup_emitted hnd ht k
  rw [Kit.fileVisits]
  split
  · exact List.nodup_nil
  rw [TypeSketch.visits, List.map_flatMap, List.nodup_flatMap]
  constructor
  · intro e he
    have hmethods := hkeys e.node.decl (hstands e he).decl_mem
    have hkept : ((e.node.decl.methods.filter fun m =>
        !MethodSketch.isSkipped k.options e.hidden m).map (·.key)).Nodup :=
      hmethods.sublist (List.filter_sublist.map MethodDecl.key)
    rw [Emitted.visits, List.map_map]
    rw [List.Nodup, List.pairwise_map] at hkept ⊢
    exact hkept.imp fun hne heq => hne (Prod.mk.inj heq).2
  · rw [List.Nodup, List.pairwise_map] at hnodup
    refine hnodup.imp fun {e d} hne => ?_
    rintro key he hd
    simp only [Emitted.visits, List.map_map, List.mem_map] at he hd
    obtain ⟨_, _, rfl⟩ := he
    obtain ⟨_, _, heq⟩ := hd
    exact hne (Prod.mk.inj heq).1.symm

end Sprouted

section Writing

variable {σ : Type} {w : Wording}

theorem Genealogy.Worded.release {shop : Workshop σ} (h : shop.genealogy.Worded w)
    (names : List String) : (shop.release names).genealogy.Worded w :=
  List.foldlRecOn
    (motive := fun l : Library => ({ shop.genealogy with library := l } : Genealogy).Worded w)
    names Library.release h fun _ hl _ _ =>
      ⟨hl.classes, fun name s hs => hl.pool name s (List.mem_filter.mp hs).1⟩

/-- What each visit takes one further holds of the draft of a file, with all visits behind it. -/
theorem Carries.fileDraft {k : Kit σ} {P : Visit → Prop} {I : List Visit → Draft → Prop}
    (h : Carries w k P I) (hk : k.Worded w) {t : ClassTree}
    (ht : ∀ n ∈ (t.sprouted k.renderer).nodes, w.Holds n.texts) (hP : ∀ v ∈ k.fileVisits t, P v)
    (hI : I [] (.ofRoot t.root.name k.options.layout)) {shop : Workshop σ}
    (hg : shop.genealogy.Worded w) :
    I (k.fileVisits t) (shop.fileDraft k t).1 ∧ (shop.fileDraft k t).2.genealogy.Worded w := by
  have hroot : w.Holds t.root.decl.texts := by
    have hdecl : (t.sprouted k.renderer).root.decl = t.root.decl := by rw [t.root_sprouted]
    rw [← hdecl]
    exact ClassNode.decl_holds (ht _ (Tree.value_mem_toList _))
  rw [Kit.fileVisits] at hP ⊢
  rw [Workshop.fileDraft]
  split
  · exact ⟨((h.steps []).writePackage rfl hroot
      (b := ⟨shop, .ofRoot t.root.name k.options.layout⟩) ⟨rfl, hI, hg⟩).2.1, hg⟩
  · next hinfo =>
    rw [if_neg hinfo] at hP
    exact h.sketch hk ht hP hI hg

/-- Whatever is drafted, the texts of the library stay as they are. -/
theorem Workshop.worded_fileDraft {k : Kit σ} (hk : k.Worded w) {t : ClassTree}
    (ht : ∀ n ∈ (t.sprouted k.renderer).nodes, w.Holds n.texts) {shop : Workshop σ}
    (hg : shop.genealogy.Worded w) : (shop.fileDraft k t).2.genealogy.Worded w := by
  have htrivial : Carries w k (fun _ => True) fun _ _ => True :=
    ⟨fun h _ _ _ => h, fun _ _ h => h, fun _ _ h => h, fun _ _ _ h => h, fun _ _ _ _ h _ => h⟩
  exact (htrivial.fileDraft hk ht (fun _ _ => trivial) trivial hg).2

/-- The trees of a session stand for classes of the library, and its kit and pool are worded. -/
structure Session.Sourced (w : Wording) (l : Library) (s : Session σ) : Prop where
  distinct : s.forest.Distinct
  stands : ∀ t ∈ s.forest.trees, ∀ n ∈ t.nodes, n.Stands w l
  genealogy : s.shop.genealogy.Worded w

namespace Session

variable {l : Library} {s : Session σ}

theorem sourced_start {k : Kit σ} (hl : l.Worded w) (memory : σ) {policy : Renaming}
    (hp : policy.Worded w) : (start k l memory policy).Sourced w l :=
  ⟨Forest.distinct_build l k.options policy, Forest.stands_build hl k.options hp,
    ⟨hl.classes, hl.pool⟩⟩

theorem Sourced.write (h : s.Sourced w l) (hk : s.kit.Worded w) {n : String}
    (hn : n ∈ s.forest.names) :
    ∃ file s', s.write n = .ok (file, s') ∧ s'.Sourced w l ∧ s'.kit = s.kit := by
  obtain ⟨t, ht, hnt⟩ := Forest.mem_names.mp hn
  have hw := write_of_mem_names h.distinct ht hnt
  obtain ⟨file, s', hw', hdistinct, _⟩ := write_of_mem h.distinct hn
  obtain ⟨_, rfl⟩ := Prod.mk.inj (Except.ok.inj (hw.symm.trans hw'))
  refine ⟨_, _, hw, ⟨hdistinct, fun u hu => ?_, ?_⟩, rfl⟩
  · obtain ⟨v, hv, rfl⟩ := List.mem_map.mp hu
    split
    · obtain ⟨ids, htree, _⟩ := Workshop.tree_writeFile s.kit (h.distinct.bare t ht) s.shop
      intro n hn
      rw [ClassTree.nodes, htree, Tree.toList_map] at hn
      obtain ⟨m, hm, rfl⟩ := List.mem_map.mp hn
      exact (h.stands t ht m hm).update m.id _
    · exact h.stands v hv
  · have hdraft := Workshop.worded_fileDraft hk
      (ClassTree.texts_sprouted (h.stands t ht) s.kit.renderer) h.genealogy
    rw [Workshop.writeFile_apply]
    exact hdraft.release _

theorem Sourced.afterWrites (ns : List String) (h : s.Sourced w l) (hk : s.kit.Worded w) :
    (s.afterWrites ns).Sourced w l ∧ (s.afterWrites ns).kit = s.kit := by
  induction ns generalizing s with
  | nil => exact ⟨h, rfl⟩
  | cons n ns ih =>
    by_cases hn : n ∈ s.forest.names
    · obtain ⟨file, s', hw, hs', hkit⟩ := h.write hk hn
      obtain ⟨hafter, heq⟩ := ih hs' (hkit ▸ hk)
      simp only [Session.afterWrites, hw]
      exact ⟨hafter, heq.trans hkit⟩
    · simp only [Session.afterWrites, write_of_not_mem h.distinct hn]
      exact ih h hk

end Session

end Writing

end ClassSketch
