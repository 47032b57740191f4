import ClassSketch.Proofs.Ancestors
import ClassSketch.Proofs.Isolation
import ClassSketch.Proofs.Provenance

/-! Files do not depend on what was written before them. A file leaves behind pooled signatures,
known ancestries and notes, and marks in its tree. A later file looks at none of this, or finds what
it would have found anyway. -/

namespace ClassSketch

namespace Library

/-- What is pooled under the name of a class is what the class says. -/
def Honest (l : Library) : Prop := ∀ c ∈ l.classes, l.served c = c.readableSignature?

theorem honest_of_unread {l : Library} (h : l.pool = []) : l.Honest := by
  intro c _
  rw [served, h]
  cases l.mode <;> rfl

theorem Honest.signature? {l : Library} (h : l.Honest) {c : ClassDecl} (hc : c ∈ l.classes) :
    (Library.signature? c l).2.Honest := by
  intro d hd
  rw [classes_signature?] at hd
  exact (served_signature? hc hd).trans (h d hd)

/-- A class that was released is read anew, the others are served as before. -/
theorem served_release (l : Library) (name : String) (c : ClassDecl) :
    (l.release name).served c = l.served c ∨
      (l.release name).served c = c.readableSignature? := by
  rw [served, served, release]
  cases l.mode with
  | pooled =>
    dsimp only
    have hlookup := Table.find?_filter_ne l.pool name c.name
    rw [Table.find?, Table.find?] at hlookup
    rw [hlookup]
    by_cases hn : c.name = name
    · exact .inr (by rw [if_pos hn]; rfl)
    · exact .inl (by rw [if_neg hn])
  | plain => exact .inl rfl
  | unreadable => exact .inl rfl

end Library

namespace Genealogy

variable {l : Library} {g : Genealogy}

theorem Sound.release (hl : l.Honest) (h : Sound l g) (name : String) :
    Sound l { g with library := g.library.release name } where
  classes := h.classes
  mode := h.mode
  served c hc := by
    rcases g.library.served_release name c with he | he
    · exact he.trans (h.served c hc)
    · exact he.trans (hl c hc).symm
  known := h.known

theorem Sound.releaseAll (hl : l.Honest) {σ : Type} {shop : Workshop σ}
    (h : Sound l shop.genealogy) (names : List String) : Sound l (shop.release names).genealogy :=
  List.foldlRecOn (motive := fun lib => Sound l { shop.genealogy with library := lib }) names
    Library.release h fun _ hlib name _ => hlib.release hl name

end Genealogy

/-- Two searches for a class find the same ancestry or none. -/
theorem Library.Answers.toOption_eq {l : Library} {name : String}
    {r r' : Except AncestryError Ancestry} (h : l.Answers name r) (h' : l.Answers name r') :
    r.toOption = r'.toOption := by
  cases h with
  | found listed traced =>
    cases h' with
    | found _ traced' => rw [traced.unique traced']
    | unknown missing => exact absurd missing listed
    | looping _ _ hloop => exact absurd hloop (not_looping_of_acc traced.covers.grounded)
  | unknown missing =>
    cases h' with
    | found listed => exact absurd missing listed
    | unknown => rfl
    | looping _ listed => exact absurd missing listed
  | looping _ listed hloop =>
    cases h' with
    | found _ traced => exact absurd hloop (not_looping_of_acc traced.covers.grounded)
    | unknown missing => exact absurd missing listed
    | looping => rfl

/-- A body is rendered from the draft alone, and the workshop gets only warnings from it. -/
theorem MethodSketch.openBody_of_draft {σ : Type} {k : Kit σ} {f : PureBody}
    (hk : k.renderer.body = f.run) {v : Visit} (head : String) {d : Draft}
    (hs : d.scope.className = some v.node.name) :
    ∃ outcome d', ∀ shop : Workshop σ, ∃ warnings,
      openBody k v head ⟨shop, d⟩ = (outcome, ⟨{ shop with warnings }, d'⟩) := by
  let opened := d.writeLine v.level (head ++ " \x7b")
  let r := rendering opened.line (f (v.site k.options) ⟨opened.line, [], v.method.lineTable⟩)
  refine ⟨fate k v r.text, { settle k v r opened with failed := d.failed }, fun shop => ?_⟩
  obtain ⟨more, hrun⟩ := Twins.openBody_pure (b := ⟨shop, d⟩) hk head hs shop.warnings d.failed
  exact ⟨more, hrun⟩

/-- Two states with the same draft, whose libraries and known ancestries agree with `l`. -/
structure Bench.Alike {σ : Type} (l : Library) (b b' : Bench σ) : Prop where
  draft : b.draft = b'.draft
  left : b.shop.genealogy.Sound l
  right : b'.shop.genealogy.Sound l

namespace Bench.Alike

variable {σ : Type} {l : Library} {b b' : Bench σ}

theorem withDraft (h : Alike l b b') {d d' : Draft} (hd : d = d') :
    Alike l { b with draft := d } { b' with draft := d' } :=
  ⟨hd, h.left, h.right⟩

/-- Whether a method overrides another one is read off the ancestry and the classes in it. -/
theorem overriding (h : Alike l b b') (c : ClassDecl) (m : MethodDecl) (ps : List JType) :
    (Override.check c m ps b).1 = (Override.check c m ps b').1 ∧
      Alike l (Override.check c m ps b).2 (Override.check c m ps b').2 := by
  rw [Override.check_apply, Override.check_apply]
  split
  · exact ⟨rfl, h⟩
  · obtain ⟨hanswer, hsound⟩ := h.left.ancestry c.name
    obtain ⟨hanswer', hsound'⟩ := h.right.ancestry c.name
    refine ⟨?_, h.draft, hsound, hsound'⟩
    have hsame := hanswer.toOption_eq hanswer'
    generalize Genealogy.ancestry c.name b.shop.genealogy = r at hsame hsound ⊢
    generalize Genealogy.ancestry c.name b'.shop.genealogy = r' at hsame hsound' ⊢
    obtain ⟨r, g⟩ := r
    obtain ⟨r', g'⟩ := r'
    have hfind : ∀ name, g.library.find? name = g'.library.find? name :=
      fun name => (hsound.find? name).trans (hsound'.find? name).symm
    cases r with
    | error e =>
      cases r' with
      | error e' => rfl
      | ok a' => cases hsame
    | ok a =>
      cases r' with
      | error e' => cases hsame
      | ok a' =>
        obtain rfl := Option.some.inj hsame
        simp only [Override.inAncestry, hfind]

theorem steps (l : Library) : Steps (σ := σ) .any Eq (· ∈ l.classes) (Alike l) where
  draw s hL _ hb := by
    subst hL
    exact hb.withDraft (by rw [hb.draft])
  spelling name b b' hb := by
    obtain ⟨shop, draft⟩ := b
    obtain ⟨shop', draft'⟩ := b'
    obtain ⟨rfl, hleft, hright⟩ := hb
    exact ⟨rfl, rfl, hleft, hright⟩
  signature c hc _ b b' hb := by
    obtain ⟨hs, hsound⟩ := hb.left.signature hc
    obtain ⟨hs', hsound'⟩ := hb.right.signature hc
    exact ⟨⟨hs.trans hs'.symm, fun s _ => s.worded_any⟩, hb.draft, hsound, hsound'⟩
  overriding c m ps b b' hb := hb.overriding c m ps

theorem body {k : Kit σ} {f : PureBody} (hk : k.renderer.body = f.run) {v : Visit} (head : String)
    {before before' : Bench σ} (hbefore : Alike l before before') (hb : Alike l b b')
    (hs : b.draft.scope.className = some v.node.name) :
    Settles (Alike l) v.node before before' (MethodSketch.openBody k v head b)
      (MethodSketch.openBody k v head b') := by
  obtain ⟨shop, d⟩ := b
  obtain ⟨shop', d'⟩ := b'
  obtain ⟨rfl, hleft, hright⟩ := hb
  obtain ⟨outcome, after, hopen⟩ := MethodSketch.openBody_of_draft hk head hs
  obtain ⟨warnings, hrun⟩ := hopen shop
  obtain ⟨warnings', hrun'⟩ := hopen shop'
  rw [hrun, hrun']
  refine ⟨Iff.rfl, fun _ => ⟨?_, hleft, hright⟩, fun _ => ?_⟩
  · simp only [Bench.rewindTo, hbefore.draft]
  · cases outcome <;> exact ⟨rfl, hleft, hright⟩

theorem follows {k : Kit σ} {f : PureBody} (hk : k.renderer.body = f.run) (l : Library) :
    Follows .any Eq (· ∈ l.classes) k k.renderer.body (fun _ => True) (fun _ => Alike l) where
  steps _ := steps l
  scope_eq hb := by rw [hb.draft]
  scope_free s hb := hb.withDraft (by rw [hb.draft])
  bodiless _ _ hb := hb
  body _ _ hL _ hbefore hb _ _ hs := by
    subst hL
    exact body hk _ hbefore hb hs

end Bench.Alike

/-- Every node stands for a class of the library. -/
def ClassTree.Within (t : ClassTree) (l : Library) : Prop := ∀ n ∈ t.nodes, n.decl ∈ l.classes

theorem ClassTree.Within.sprouted {σ : Type} {t : ClassTree} {l : Library} (h : t.Within l)
    (r : Renderer σ) : (t.sprouted r).Within l := by
  obtain ⟨added, hperm, hadded⟩ := t.clearFailures.sprouts_discoverLambdas r
  have hclear : ∀ n ∈ t.clearFailures.nodes, n.decl ∈ l.classes := by
    intro n hn
    rw [nodes, clearFailures, Tree.toList_map] at hn
    obtain ⟨m, hm, rfl⟩ := List.mem_map.mp hn
    exact h m hm
  intro n hn
  rcases List.mem_append.mp (hperm.mem_iff.mp hn) with hn | hn
  · obtain ⟨home, hhome, i, site, id, rfl⟩ := hadded n hn
    exact hclear home hhome
  · exact hclear n hn

namespace Workshop

variable {σ : Type} {k : Kit σ} {f : PureBody} {l : Library} {t : ClassTree}
  {shop shop' : Workshop σ}

theorem keeps_sketch (hk : k.renderer.body = f.run) (ht : t.Within l) :
    Keeps (Bench.Alike l) Eq (TypeSketch.sketch k 0 (t.sprouted k.renderer).tree)
      (TypeSketch.sketch k 0 (t.sprouted k.renderer).tree) := by
  intro b b' hb
  have hany : ∀ v ∈ TypeSketch.visits k 0 (t.sprouted k.renderer).tree, True :=
    fun _ _ => trivial
  exact ⟨rfl, (Bench.Alike.follows hk l).sketch k.worded_any (fun _ _ hL => congrArg (· + 1) hL)
    (ht.sprouted k.renderer) (fun _ _ _ _ _ _ => trivial) (.inl fun _ => rfl) rfl hany [] b b' hb⟩

theorem alike_fileDraft (hk : k.renderer.body = f.run) (ht : t.Within l)
    (h : shop.genealogy.Sound l) (h' : shop'.genealogy.Sound l) :
    Bench.Alike l ⟨(shop.fileDraft k t).2, (shop.fileDraft k t).1⟩
      ⟨(shop'.fileDraft k t).2, (shop'.fileDraft k t).1⟩ := by
  let start := Draft.ofRoot t.root.name k.options.layout
  have hstart : Bench.Alike l
      ⟨shop.prepare (t.sprouted k.renderer).preparedClasses, start⟩
      ⟨shop'.prepare (t.sprouted k.renderer).preparedClasses, start⟩ :=
    ⟨rfl, h, h'⟩
  rw [fileDraft, fileDraft]
  split
  · exact ⟨rfl, h, h'⟩
  · exact (keeps_sketch hk ht _ _ hstart).2

/-- The file of a tree does not depend on the workshop. -/
theorem writeFile_eq (hk : k.renderer.body = f.run) (ht : t.Within l) (hl : l.Honest)
    (h : shop.genealogy.Sound l) (h' : shop'.genealogy.Sound l) :
    (shop.writeFile k t).1 = (shop'.writeFile k t).1 ∧
      (shop.writeFile k t).2.2.genealogy.Sound l := by
  obtain ⟨hdraft, hsound, _⟩ := alike_fileDraft hk ht h h'
  dsimp only at hdraft hsound
  rw [writeFile_apply, writeFile_apply]
  generalize shop.fileDraft k t = out at hdraft hsound ⊢
  dsimp only
  rw [hdraft]
  exact ⟨rfl, hsound.releaseAll hl _⟩

end Workshop

namespace ClassTree

/-- The tree without marks of failures. -/
def unmarked (t : ClassTree) : Tree ClassNode := t.clearFailures.tree

variable {t t' : ClassTree}

theorem names_eq_of_unmarked (h : t.unmarked = t'.unmarked) : t.names = t'.names := by
  have hnames : ∀ s : ClassTree, s.names = s.unmarked.toList.map (·.name) := by
    intro s
    rw [unmarked, clearFailures, Tree.toList_map, List.map_map]
    rfl
  rw [hnames, hnames, h]

theorem root_eq_of_unmarked (h : t.unmarked = t'.unmarked) :
    t.root.name = t'.root.name ∧ t.root.decl = t'.root.decl := by
  have hroot : ∀ s : ClassTree, s.unmarked.value.name = s.root.name ∧
      s.unmarked.value.decl = s.root.decl := by
    intro s
    rw [unmarked, clearFailures, Tree.value_map]
    exact ⟨rfl, rfl⟩
  rw [← (hroot t).1, ← (hroot t).2, h]
  exact hroot t'

theorem unmarked_unmarked (t : ClassTree) (built : Nat) (index : List (String × Nat)) :
    unmarked ⟨t.unmarked, built, index⟩ = t.unmarked := by
  rw [unmarked, unmarked, clearFailures, clearFailures]
  exact Tree.map_map _ _ t.tree

theorem unmarked_of_marked {ids : List Nat} (h : t'.tree = t.tree.map (ClassNode.marked ids)) :
    t'.unmarked = t.unmarked := by
  rw [unmarked, unmarked, clearFailures, clearFailures, h, Tree.map_map]
  rfl

/-- Nodes are added by looking at the tree alone. -/
theorem tree_discoverLambdas {σ : Type} (h : t.tree = t'.tree) (r : Renderer σ) :
    (t.discoverLambdas r).tree = (t'.discoverLambdas r).tree := by
  have hadd : ∀ {s s' : ClassTree} (home : ClassNode) (i : Nat) (site : CallSite),
      s.tree = s'.tree → (s.addLambda home i site).2.tree = (s'.addLambda home i site).2.tree := by
    intro s s' home i site hs
    simp only [addLambda, addTransient, size, hs]
  rw [discoverLambdas, discoverLambdas, nodes, nodes, h]
  refine List.foldl_rel (r := fun s s' : ClassTree => s.tree = s'.tree) h fun home _ s s' hs => ?_
  exact List.foldl_rel (r := fun s s' : ClassTree => s.tree = s'.tree) hs
    fun site _ s s' hs => hadd home site.2 site.1 hs

end ClassTree

namespace Workshop

variable {σ : Type} {t t' : ClassTree}

/-- Marks of earlier failures do not matter to a file. -/
theorem writeFile_unmarked (k : Kit σ) (h : t.unmarked = t'.unmarked) (shop : Workshop σ) :
    (shop.writeFile k t).1 = (shop.writeFile k t').1 := by
  obtain ⟨hname, hdecl⟩ := ClassTree.root_eq_of_unmarked h
  have htree : (t.sprouted k.renderer).tree = (t'.sprouted k.renderer).tree :=
    ClassTree.tree_discoverLambdas h k.renderer
  have hprepared : (t.sprouted k.renderer).preparedClasses =
      (t'.sprouted k.renderer).preparedClasses := by
    rw [ClassTree.preparedClasses, ClassTree.preparedClasses, ClassTree.preparationOrder,
      ClassTree.preparationOrder, htree]
  have hdraft : shop.fileDraft k t = shop.fileDraft k t' := by
    rw [fileDraft, fileDraft, hprepared, htree, hname, hdecl]
  have hfailure : ∀ ids, ((t.sprouted k.renderer).markFailed ids).hasFailure =
      ((t'.sprouted k.renderer).markFailed ids).hasFailure := by
    intro ids
    rw [ClassTree.hasFailure, ClassTree.hasFailure, ClassTree.nodes, ClassTree.nodes,
      ClassTree.markFailed, ClassTree.markFailed, htree]
  rw [writeFile_apply, writeFile_apply]
  dsimp only
  rw [hdraft, hname, hdecl, hfailure]

theorem files_writeFiles {k : Kit σ} {f : PureBody} (hk : k.renderer.body = f.run) {l : Library}
    (hl : l.Honest) {shop shop' : Workshop σ} (h : shop.genealogy.Sound l)
    (h' : shop'.genealogy.Sound l) {ts : List ClassTree} (hts : ∀ t ∈ ts, t.Within l) :
    (shop.writeFiles k ts).1 = ts.map fun t => (shop'.writeFile k t).1 := by
  induction ts generalizing shop with
  | nil => rfl
  | cons t ts ih =>
    obtain ⟨ht, hts⟩ := List.forall_mem_cons.mp hts
    obtain ⟨hfile, hsound⟩ := writeFile_eq hk ht hl h h'
    rw [List.map_cons, ← hfile, ← ih hsound hts, writeFiles]

end Workshop

namespace Session

variable {σ : Type} {l : Library} {s s' : Session σ}

/-- A session that was begun as another one: its trees are the same but for marks, and its library
and known ancestries agree with `l`. -/
structure Resumes (l : Library) (s s' : Session σ) : Prop where
  kit : s'.kit = s.kit
  trees : s'.forest.trees.map ClassTree.unmarked = s.forest.trees.map ClassTree.unmarked
  sound : s'.shop.genealogy.Sound l

/-- A file that is written marks its own tree and leaves the other trees alone. -/
theorem unmarked_update {f : Forest} (h : f.Distinct) {t u : ClassTree} (ht : t ∈ f.trees)
    (hu : u.unmarked = t.unmarked) :
    (f.update u).trees.map ClassTree.unmarked = f.trees.map ClassTree.unmarked := by
  rw [Forest.update, List.map_map]
  refine List.map_congr_left fun v hv => ?_
  rw [Function.comp_apply]
  split
  · next hroot =>
    have hname := hroot.trans (ClassTree.root_eq_of_unmarked hu).1
    have heq := h.tree_unique hv ht v.root_name_mem (hname ▸ t.root_name_mem)
    rw [hu, heq]
  · rfl

theorem within_of_sourced (hs : s.Sourced .any l) {t : ClassTree} (ht : t ∈ s.forest.trees) :
    t.Within l :=
  fun n hn => (hs.stands t ht n hn).decl_mem

theorem Resumes.write (h : Resumes l s s') (hs : s'.Sourced .any l) {f : PureBody}
    (hk : s'.kit.renderer.body = f.run) (hl : l.Honest) {n : String} (hn : n ∈ s'.forest.names)
    {file : SourceFile} {after : Session σ} (hw : s'.write n = .ok (file, after)) :
    Resumes l s after := by
  obtain ⟨t, ht, hnt⟩ := Forest.mem_names.mp hn
  have hsame := (write_of_mem_names hs.distinct ht hnt).symm.trans hw
  obtain ⟨_, rfl⟩ := Prod.mk.inj (Except.ok.inj hsame)
  obtain ⟨ids, hmarked, _⟩ := Workshop.tree_writeFile s'.kit (hs.distinct.bare t ht) s'.shop
  have htrees := unmarked_update hs.distinct ht (ClassTree.unmarked_of_marked hmarked)
  have hsound := (Workshop.writeFile_eq hk (within_of_sourced hs ht) hl h.sound h.sound).2
  generalize s'.shop.writeFile s'.kit t = out at htrees hsound ⊢
  exact ⟨h.kit, htrees.trans h.trees, hsound⟩

theorem Resumes.afterWrites (h : Resumes l s s') (hs : s'.Sourced .any l) {f : PureBody}
    (hk : s'.kit.renderer.body = f.run) (hl : l.Honest) (ns : List String) :
    Resumes l s (s'.afterWrites ns) := by
  induction ns generalizing s' with
  | nil => exact h
  | cons n ns ih =>
    by_cases hn : n ∈ s'.forest.names
    · obtain ⟨file, after, hw, hafter, hkit⟩ := hs.write s'.kit.worded_any hn
      simp only [Session.afterWrites, hw]
      exact ih (h.write hs hk hl hn hw) hafter (hkit ▸ hk)
    · simp only [Session.afterWrites, write_of_not_mem hs.distinct hn]
      exact ih h hs hk

theorem Resumes.names_eq (h : Resumes l s s') : s'.forest.names = s.forest.names := by
  have hnames : ∀ f : Forest, f.names =
      (f.trees.map ClassTree.unmarked).flatMap fun t => t.toList.map (·.name) := by
    intro f
    rw [Forest.names, List.flatMap_map]
    refine List.flatMap_congr fun t _ => ?_
    rw [ClassTree.unmarked, ClassTree.clearFailures, Tree.toList_map, List.map_map]
    rfl
  rw [hnames, hnames, h.trees]

/-- A session writes the same file as the one that it was begun as. -/
theorem Resumes.file_eq (h : Resumes l s s') (hs : s.Sourced .any l) (hs' : s'.Sourced .any l)
    {f : PureBody} (hk : s.kit.renderer.body = f.run) (hl : l.Honest)
    (hg : s.shop.genealogy.Sound l) (n : String) :
    (s'.write n).map (·.1) = (s.write n).map (·.1) := by
  by_cases hn : n ∈ s.forest.names
  · obtain ⟨t, ht, hnt⟩ := Forest.mem_names.mp hn
    have hmem : t.unmarked ∈ s'.forest.trees.map ClassTree.unmarked :=
      h.trees ▸ List.mem_map_of_mem ht
    obtain ⟨t', ht', hsame⟩ := List.mem_map.mp hmem
    have hnt' : n ∈ t'.names := ClassTree.names_eq_of_unmarked hsame ▸ hnt
    have hfile := (Workshop.writeFile_eq hk (within_of_sourced hs' ht') hl h.sound hg).1
    have hfiles := hfile.trans (Workshop.writeFile_unmarked s.kit hsame s.shop)
    rw [write_of_mem_names hs.distinct ht hnt, write_of_mem_names hs'.distinct ht' hnt', h.kit,
      Except.map, Except.map, hfiles]
  · have hn' : n ∉ s'.forest.names := h.names_eq ▸ hn
    rw [write_of_not_mem hs.distinct hn, write_of_not_mem hs'.distinct hn']

/-- All files together are the files of the single roots. -/
theorem Resumes.files_writeAll (h : Resumes l s s') (hs : s.Sourced .any l)
    (hs' : s'.Sourced .any l) {f : PureBody} (hk : s.kit.renderer.body = f.run) (hl : l.Honest)
    (hg : s.shop.genealogy.Sound l) :
    s'.writeAll.1.map Except.ok = s.forest.roots.map fun root => (s.write root).map (·.1) := by
  have hfiles : s'.writeAll.1 = s'.forest.trees.map fun t => (s.shop.writeFile s.kit t).1 := by
    rw [writeAll, h.kit]
    exact Workshop.files_writeFiles hk hl h.sound hg fun t ht => within_of_sourced hs' ht
  -- The file of a tree is that of the tree without marks, and those are the same in both sessions.
  have hbare : ∀ t : ClassTree, (s.shop.writeFile s.kit t).1 =
      (s.shop.writeFile s.kit ⟨t.unmarked, 0, []⟩).1 := by
    intro t
    exact Workshop.writeFile_unmarked s.kit (t.unmarked_unmarked 0 []).symm s.shop
  have hmap : ∀ f : Forest, (f.trees.map fun t => (s.shop.writeFile s.kit t).1) =
      (f.trees.map ClassTree.unmarked).map fun t => (s.shop.writeFile s.kit ⟨t, 0, []⟩).1 := by
    intro f
    rw [List.map_map]
    exact List.map_congr_left fun t _ => hbare t
  rw [hfiles, hmap, h.trees, ← hmap, Forest.roots, List.map_map, List.map_map]
  refine List.map_congr_left fun t ht => ?_
  rw [Function.comp_apply, Function.comp_apply,
    write_of_mem_names hs.distinct ht t.root_name_mem, Except.map]

end Session

namespace Forest

theorem nodup_roots {f : Forest} (h : f.Distinct) : f.roots.Nodup := by
  rw [roots, List.Nodup, List.pairwise_map]
  refine (List.nodup_flatMap.mp h.nodup).2.imp fun {t u} hdisjoint heq => ?_
  exact hdisjoint t.root_name_mem (heq ▸ u.root_name_mem)

theorem sorted_roots_ofLinks (classes : List ClassDecl) (links : List Link) :
    (ofLinks classes links).roots.Pairwise (· ≤ ·) := by
  have hsorted := pairwise_sortByKey (fun t : Tree ClassNode => t.value.name)
    (grown (classes.filter fun c => !(links.map (·.child.name)).contains c.name) links)
  rw [ofLinks_eq, roots, List.map_map, List.pairwise_map]
  refine hsorted.imp fun {t u} hle => ?_
  rwa [Function.comp_apply, Function.comp_apply, ClassTree.root_name_ofTree,
    ClassTree.root_name_ofTree]

theorem ascending_roots_build (l : Library) (o : Options) (policy : Renaming) :
    (build l o policy).1.roots.Pairwise (· < ·) := by
  obtain ⟨w, _, hf⟩ := build_eq_ofLinks l o policy
  have hnodup := nodup_roots (distinct_build l o policy)
  rw [hf] at hnodup ⊢
  refine ((sorted_roots_ofLinks _ w.links).and hnodup).imp fun {a b} hab => ?_
  by_contra hlt
  exact hab.2 (String.le_antisymm hab.1 (String.not_lt.mp hlt))

end Forest

namespace Session

/-- Whatever was written before, in any order and any number of times, a file is the one that a
session writes first. So all files together are the first files of the roots, in the order of the
roots' names. Signatures may have been read before the first session begins, if what is pooled is
what the classes say; the renderer of bodies keeps nothing. -/
theorem files_forget_history {σ : Type} (k : Kit σ) (f : PureBody) {l : Library} (hl : l.Honest)
    (memory : σ) (policy : Renaming) (written : List String) :
    let first := start (k.withBody f.run) l memory policy
    let later := first.afterWrites written
    (∀ n, (later.write n).map (·.1) = (first.write n).map (·.1)) ∧
      later.writeAll.1.map Except.ok =
        first.forest.roots.map (fun root => (first.write root).map (·.1)) ∧
      first.forest.roots.Pairwise (· < ·) := by
  intro first later
  have hfirst : first.Sourced .any l :=
    sourced_start (Library.worded_any _) memory policy.worded_any
  have hlater : later.Sourced .any l := (hfirst.afterWrites written first.kit.worded_any).1
  have hsound := Genealogy.sound_start l
  have hbegun : Resumes l first first := ⟨rfl, rfl, hsound⟩
  have hresumes := hbegun.afterWrites hfirst rfl hl written
  exact ⟨hresumes.file_eq hfirst hlater rfl hl hsound,
    hresumes.files_writeAll hfirst hlater rfl hl hsound,
    Forest.ascending_roots_build _ k.options policy⟩

/-- A class whose signature was read before the session begins. It is written twice, and once more
after a class that does not exist. -/
theorem files_forget_history_read :
    let c : ClassDecl := { name := "Box", signature := some "<T:LO;>LO;" }
    let l := (Library.signature? c (.ofList [c])).2
    let k : Kit Unit := ⟨{}, PreparedBodies.renderer {} Unit⟩
    let f : PureBody := fun _ t => (.ok {}, t)
    let first := start (k.withBody f.run) l () .keep
    l.pool.map (·.1) = ["Box"] ∧ l.Honest ∧ first.forest.roots = ["Box"] ∧
      ((first.afterWrites ["Box", "Box", "Lid"]).write "Box").map (·.1) =
        (first.write "Box").map (·.1) := by
  intro c l k f first
  have hunread : (Library.ofList [c]).Honest := Library.honest_of_unread rfl
  have hl : l.Honest := hunread.signature? List.mem_cons_self
  have hforget := files_forget_history k f hl () .keep ["Box", "Box", "Lid"]
  exact ⟨by decide +kernel, hl, by decide +kernel, hforget.1 "Box"⟩

end Session

end ClassSketch
