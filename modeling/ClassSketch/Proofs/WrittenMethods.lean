import ClassSketch.Proofs.GuardedFiles
import ClassSketch.Proofs.MappedLines
import ClassSketch.Proofs.ReachedClasses

/-! No method is lost and none is doubled. A file comes to the root of its tree and to the classes
that can be reached from there, to each of them once. The methods that have tables in the file are
those of these classes that no rule leaves out. -/

namespace ClassSketch

open TypeSketch (Binds Moduleless Reached Walker entered walk)

/-- The draft of a file is what a walk over its classes leaves. -/
theorem Workshop.fileDraft_eq_run {σ : Type} {k : Kit σ} {t : ClassTree}
    (hinfo : t.root.decl.isPackageInfo = false)
    (hplain : Moduleless (entered (walk k 0 (t.sprouted k.renderer).tree))) (shop : Workshop σ) :
    (shop.fileDraft k t).1 = (Walker.run k (walk k 0 (t.sprouted k.renderer).tree)
      ⟨shop.benchFor k t.root.name (t.sprouted k.renderer).preparedClasses, []⟩).bench.draft := by
  rw [TypeSketch.run_walk hplain, fileDraft, hinfo]
  rfl

namespace PreparedBodies

variable {σ : Type} (p : PreparedBodies) (o : Options)

/-- The method has a body, and is not taken back for what the body says. Static initializers have
one whatever their flags. -/
structure Remains (v : Visit) : Prop where
  hasBody : v.method.isStaticInit = true ∨
    v.method.access.hasSome (AccessFlags.abstractFlag.union .nativeFlag) = false
  not_empty : ¬ (Text.isBlankText (p.bodyText o v) = true ∧
    MethodSketch.isHiddenWhenEmpty o v.node v.method (v.shape (p.kit o σ)).visible.length = true)
  not_generated : ¬ (v.node.decl.isRecord = true ∧
    MethodSketch.isGeneratedMember v.node.decl v.method (p.bodyText o v) = true)

/-- No rule leaves the method out of its class. -/
structure Filed (v : Visit) : Prop extends p.Remains (σ := σ) o v where
  not_synthetic : ¬ (v.method.isSynthetic = true ∧ o.hideSynthetic = true)
  not_bridge : ¬ (v.method.access.has .bridgeFlag = true ∧ o.hideBridges = true)
  not_hidden : v.method.key ∉ (p.renderer σ).hidden v.node.decl
  not_lambda : ∀ site ∈ (p.renderer σ).callSites v.node.decl,
    ¬ Binds v.node.decl site v.method.key

instance (v : Visit) : Decidable (p.Remains (σ := σ) o v) :=
  decidable_of_iff (_ ∧ _ ∧ _)
    ⟨fun h => ⟨h.1, h.2.1, h.2.2⟩, fun h => ⟨h.hasBody, h.not_empty, h.not_generated⟩⟩

instance (v : Visit) : Decidable (p.Filed (σ := σ) o v) :=
  decidable_of_iff (p.Remains (σ := σ) o v ∧ _ ∧ _ ∧ _ ∧ _)
    ⟨fun h => ⟨h.1, h.2.1, h.2.2.1, h.2.2.2.1, h.2.2.2.2⟩, fun h => ⟨h.toRemains, h.not_synthetic,
      h.not_bridge, h.not_hidden, h.not_lambda⟩⟩

variable {p o} {v : Visit}

theorem shows_iff : p.Shows (σ := σ) o v ↔ p.Remains (σ := σ) o v := by
  have hoptions : (p.kit o σ).options = o := rfl
  constructor
  · rintro ⟨hbody, hwritten⟩
    rw [MethodSketch.fate, hoptions] at hwritten
    split_ifs at hwritten with hempty hgenerated
    rw [Bool.and_eq_true] at hempty hgenerated
    exact ⟨(v.hasBody_iff _).mp hbody, hempty, hgenerated⟩
  · rintro ⟨hbody, hempty, hgenerated⟩
    rw [← Bool.and_eq_true] at hempty hgenerated
    refine ⟨(v.hasBody_iff _).mpr hbody, ?_⟩
    rw [MethodSketch.fate, hoptions, if_neg hempty, if_neg hgenerated]

/-- A class leaves out the methods it is told to, and the bodies of its lambdas. -/
theorem filed_iff {hidden : List String}
    (hhidden : v.method.key ∈ hidden ↔ v.method.key ∈ (p.renderer σ).hidden v.node.decl ∨
      ∃ site ∈ (p.renderer σ).callSites v.node.decl, Binds v.node.decl site v.method.key) :
    p.Filed (σ := σ) o v ↔
      MethodSketch.isSkipped o hidden v.method = false ∧ p.Shows (σ := σ) o v := by
  have hskipped : MethodSketch.isSkipped o hidden v.method = false ↔
      (¬ (v.method.isSynthetic = true ∧ o.hideSynthetic = true) ∧
        ¬ (v.method.access.has .bridgeFlag = true ∧ o.hideBridges = true)) ∧
        v.method.key ∉ hidden := by
    rw [MethodSketch.isSkipped, Bool.or_eq_false_iff, Bool.or_eq_false_iff, ← Bool.and_eq_true,
      ← Bool.and_eq_true, Bool.not_eq_true, Bool.not_eq_true, List.contains_eq_mem,
      decide_eq_false_iff_not]
  rw [hskipped, hhidden, shows_iff]
  constructor
  · intro h
    refine ⟨⟨⟨h.not_synthetic, h.not_bridge⟩, ?_⟩, h.toRemains⟩
    rintro (hkey | ⟨site, hsite, hbinds⟩)
    · exact h.not_hidden hkey
    · exact h.not_lambda site hsite hbinds
  · rintro ⟨⟨⟨hsynthetic, hbridge⟩, hkey⟩, hremains⟩
    exact ⟨hremains, hsynthetic, hbridge, fun h => hkey (.inl h),
      fun site hs h => hkey (.inr ⟨site, hs, h⟩)⟩

/-- After some visits, the methods that are filed are those of them that were written. -/
structure Recorded (p : PreparedBodies) (o : Options) (σ : Type) (done : List Visit) (d : Draft) :
    Prop where
  ordered : d.lineMap.Ordered
  filed : ∀ key, (d.lineMap.counted? key).isSome = true ↔
    ∃ v ∈ done, v.key = key ∧ p.Shows (σ := σ) o v

namespace Recorded

variable {done : List Visit} {d d' : Draft}

theorem empty (root : String) : Recorded p o σ [] (.ofRoot root o.layout) := by
  refine ⟨⟨List.Pairwise.nil, fun _ _ h => by cases h⟩, fun key => ⟨fun h => ?_, ?_⟩⟩
  · cases h
  · rintro ⟨_, h, _⟩
    cases h

theorem extend (h : Recorded p o σ done d) (hmap : d'.lineMap = d.lineMap) :
    Recorded p o σ done d' := by
  refine ⟨hmap ▸ h.ordered, ?_⟩
  rw [hmap]
  exact h.filed

theorem skip (h : Recorded p o σ done d) (hv : ¬ p.Shows (σ := σ) o v) :
    Recorded p o σ (done ++ [v]) d := by
  refine ⟨h.ordered, fun key => (h.filed key).trans ?_⟩
  simp only [List.mem_append, List.mem_singleton, or_and_right, exists_or, exists_eq_left]
  exact (or_iff_left fun hshown => hv hshown.2).symm

theorem shown (h : Recorded p o σ done d) (hv : p.Shows (σ := σ) o v) {t : Trace}
    (hmap : d'.lineMap = d.lineMap.add v.node.decl.name v.method.key t) :
    Recorded p o σ (done ++ [v]) d' := by
  refine ⟨hmap ▸ h.ordered.add _ _ _, fun key => ?_⟩
  rw [hmap, h.ordered.counted?_add]
  simp only [List.mem_append, List.mem_singleton, or_and_right, exists_or, exists_eq_left]
  split
  · next hkey => exact ⟨fun _ => .inr ⟨hkey.symm, hv⟩, fun _ => rfl⟩
  · next hkey =>
    rw [h.filed]
    exact (or_iff_left fun hshown => hkey hshown.1.symm).symm

theorem carries : Carries .any (p.kit o σ) (fun _ => True) (Recorded p o σ) where
  page h _ _ hmap := h.extend hmap
  draw _ _ h := h.extend rfl
  bodiless _ hbody h := h.skip (not_shows_of_bodiless hbody)
  hidden _ _ he h := by
    rw [rendered_kit] at he
    exact h.skip (not_shows_of_hidden he)
  shown := by
    intro done v d head memory _ hbody _ h d' hne
    rw [rendered_kit] at hne ⊢
    obtain ⟨_, t, _, hmap⟩ := Charted.settle_kit (p := p) (o := o) v
      ⟨some (p.bodyText o v), (p.render (v.site o) ⟨d'.line, [], v.method.lineTable⟩).2⟩ rfl hne d'
    exact h.shown (shows_of_not_hidden hbody hne) hmap

/-- The tables of a finished file are those of the methods that were written. -/
theorem isSome_tables (h : Recorded p o σ done d) (c : ClassDecl) (name key : String) :
    (((d.finish o c).2.tables.find? name).bind (·.find? key)).isSome = true ↔
      ∃ v ∈ done, v.key = (name, key) ∧ p.Shows (σ := σ) o v := by
  rw [← h.filed, d.lineMap_finish]
  constructor
  · intro hsome
    obtain ⟨table, htable⟩ := Option.isSome_iff_exists.mp hsome
    obtain ⟨methods, hclass, hmethod⟩ := Option.bind_eq_some_iff.mp htable
    obtain ⟨counted, hcounted, _⟩ := LineMap.counted?_of_find?_tables hclass hmethod
    exact Option.isSome_iff_exists.mpr ⟨counted, hcounted⟩
  · intro hsome
    obtain ⟨counted, hcounted⟩ := Option.isSome_iff_exists.mp hsome
    obtain ⟨methods, hclass, hmethod⟩ :=
      (d.lineMap.shiftBy (d.fileHead c).lineCount).find?_tables hcounted
    rw [hclass, Option.bind_some, hmethod]
    rfl

end Recorded

/-- The methods that a file comes to and that are written, by the classes that are entered. -/
theorem shown_fileVisits_iff {w : Wording} {l : Library} {t : ClassTree}
    (ht : ∀ n ∈ t.nodes, n.Stands w l) (hids : (t.nodes.map (·.id)).Nodup)
    (hinfo : t.root.decl.isPackageInfo = false)
    (hplain : Moduleless
      (entered (walk (p.kit o σ) 0 (t.sprouted (p.kit o σ).renderer).tree)))
    (name key : String) :
    (∃ v ∈ (p.kit o σ).fileVisits t, v.key = (name, key) ∧ p.Shows (σ := σ) o v) ↔
      ∃ e ∈ entered (walk (p.kit o σ) 0 (t.sprouted (p.kit o σ).renderer).tree),
        e.node.name = name ∧ ∃ m ∈ e.node.decl.methods, m.key = key ∧
          p.Filed (σ := σ) o ⟨e.level, e.node, m⟩ := by
  have hemitted := TypeSketch.entered_walk_eq_emitted hplain
  have hstands := ClassTree.stands_emitted ht (p.kit o σ)
  rw [← hemitted] at hstands
  have hfiled : ∀ e ∈ entered (walk (p.kit o σ) 0 (t.sprouted (p.kit o σ).renderer).tree), ∀ m,
      p.Filed (σ := σ) o ⟨e.level, e.node, m⟩ ↔ MethodSketch.isSkipped o e.hidden m = false ∧
        p.Shows (σ := σ) o ⟨e.level, e.node, m⟩ :=
    fun e he m => filed_iff (v := ⟨e.level, e.node, m⟩)
      (TypeSketch.mem_hidden_iff ht hids he (hstands e he).isLambda_eq m.key)
  rw [Kit.fileVisits, hinfo, if_neg Bool.false_ne_true, TypeSketch.visits, ← hemitted]
  constructor
  · rintro ⟨v, hv, hkey, hshows⟩
    obtain ⟨e, he, hv⟩ := List.mem_flatMap.mp hv
    obtain ⟨m, hm, rfl⟩ := List.mem_map.mp hv
    obtain ⟨hm, hkept⟩ := List.mem_filter.mp hm
    obtain ⟨hname, hkey⟩ := Prod.mk.inj hkey
    exact ⟨e, he, (hstands e he).name_eq.trans hname, m, hm, hkey,
      (hfiled e he m).mpr ⟨Bool.not_eq_true' _ ▸ hkept, hshows⟩⟩
  · rintro ⟨e, he, rfl, m, hm, rfl, hmethod⟩
    obtain ⟨hkept, hshows⟩ := (hfiled e he m).mp hmethod
    refine ⟨⟨e.level, e.node, m⟩, List.mem_flatMap.mpr ⟨e, he, List.mem_map_of_mem ?_⟩, ?_, hshows⟩
    · exact List.mem_filter.mpr ⟨hm, Bool.not_eq_true' _ ▸ hkept⟩
    · rw [Visit.key, (hstands e he).name_eq]

/-- Whatever was written before, the file of a tree without modules is the result of a walk over its
classes. The walk enters the classes that can be reached, each of them once. A method has a table in
the file if and only if it belongs to one of them and no rule leaves it out. -/
theorem written_methods (o : Options) (p : PreparedBodies) (l : Library) (policy : Renaming)
    (memory : σ) (written : List String) :
    let k := p.kit o σ
    let s := (Session.start k l memory policy).afterWrites written
    ∀ t ∈ s.forest.trees, t.root.decl.isPackageInfo = false →
      (∀ n, Reached k t.tree n → TypeSketch.moduleOf? n.decl = none) →
      ∀ n ∈ t.names, ∃ file s', s.write n = .ok (file, s') ∧
        let tree := t.sprouted k.renderer
        let steps := walk k 0 tree.tree
        let d := (Walker.run k steps
          ⟨s.shop.benchFor k t.root.name tree.preparedClasses, []⟩).bench.draft
        file.text = (d.finish o t.root.decl).1 ∧
        file.tables = (d.finish o t.root.decl).2.tables ∧
        ((entered steps).map (·.node.name)).Nodup ∧
        (∀ c, c ∈ (entered steps).map (·.node) ↔
          ∃ m, Reached k t.tree m ∧ { m with failed := false } = c) ∧
        ∀ name key, ((file.tables.find? name).bind (·.find? key)).isSome = true ↔
          ∃ e ∈ entered steps, e.node.name = name ∧ ∃ m ∈ e.node.decl.methods, m.key = key ∧
            p.Filed (σ := σ) o ⟨e.level, e.node, m⟩ := by
  intro k s t ht hinfo hmodules n hn
  obtain ⟨hsourced, hkit⟩ := (Session.sourced_start (k := k) l.worded_any memory
    policy.worded_any).afterWrites written k.worded_any
  have hstart : (Session.start k l memory policy).Orderly := Session.orderly_load _
  have horderly := (hstart.afterWrites written).1
  change s.Sourced .any l at hsourced
  change s.kit = k at hkit
  change s.Orderly at horderly
  clear_value s
  have hstands := hsourced.stands t ht
  have hids : (t.nodes.map (·.id)).Nodup := (horderly.numbered t ht).indexed.nodup
  have hbare := hsourced.distinct.bare t ht
  have hreached : ∀ c, c ∈ (entered (walk k 0 (t.sprouted k.renderer).tree)).map (·.node) ↔
      ∃ m, Reached k t.tree m ∧ { m with failed := false } = c :=
    fun c => TypeSketch.mem_entered_walk.trans (TypeSketch.reached_sprouted hbare)
  have hplain : Moduleless (entered (walk k 0 (t.sprouted k.renderer).tree)) := by
    intro e he
    obtain ⟨m, hm, heq⟩ := (hreached e.node).mp (List.mem_map_of_mem he)
    rw [← heq]
    exact hmodules m hm
  have hdraft := s.shop.fileDraft_eq_run hinfo hplain
  have hrecorded := (Recorded.carries.fileDraft k.worded_any
    (ClassTree.texts_sprouted hstands k.renderer) (fun _ _ => trivial)
    (Recorded.empty t.root.name) hsourced.genealogy).1
  rw [hdraft] at hrecorded
  refine ⟨_, _, Session.write_of_mem_names hsourced.distinct ht hn, ?_⟩
  rw [hkit, Workshop.text_writeFile, Workshop.tables_writeFile, hdraft]
  refine ⟨rfl, rfl, ?_, hreached, fun name key => ?_⟩
  · have hnodup := ClassTree.nodup_emitted (hsourced.distinct.nodup_tree ht) hstands k
    have hemitted := ClassTree.stands_emitted hstands k
    rw [← TypeSketch.entered_walk_eq_emitted hplain] at hnodup hemitted
    rwa [List.map_congr_left fun e he => (hemitted e he).name_eq]
  · exact (hrecorded.isSome_tables t.root.decl name key).trans
      (shown_fileVisits_iff hstands hids hinfo hplain name key)

section Worker

def worker : ClassDecl where
  name := "a/W"
  access := ⟨1⟩
  superclass := some "java/lang/Object"
  nesting := some
    [⟨"a/W$Job", some "a/W", some "Job", ⟨1⟩⟩, ⟨"a/W$Map", some "a/W", some "Map", ⟨1⟩⟩]
  methods :=
    [{ name := "run", descriptor := "()V", access := ⟨1⟩ },
     { name := "lambda$0", descriptor := "()V", access := ⟨4106⟩ }]

def job : ClassDecl where
  name := "a/W$Job"
  access := ⟨1⟩
  superclass := some "java/lang/Object"
  methods := [{ name := "<clinit>", descriptor := "()V", access := ⟨1032⟩ }]

def switchMap : ClassDecl where
  name := "a/W$Map"
  access := ⟨1⟩
  superclass := some "java/lang/Object"
  methods := [{ name := "get", descriptor := "()V", access := ⟨1⟩ }]

def workerBodies : PreparedBodies where
  bodies := [("a/W run ()V", "go();"), ("a/W$Job <clinit> ()V", "init();")]
  hidden := [("a/W", ["a/W$Map"])]
  callSites := [("a/W",
    [⟨"java/lang/Runnable", "run", "()V", "a/W", "lambda$0", "()V", .invokeStatic, none⟩])]

def workerOptions : Options := { hideSynthetic := false }

def workerSession : Session Unit :=
  .start (workerBodies.kit workerOptions Unit) (.ofList [worker, job, switchMap]) () .keep

/-- A static initializer of a member has a table although it is flagged as abstract. The body of a
lambda has none, nor has a method of a hidden class. -/
theorem written_methods_worker :
    ∃ file s', workerSession.write "a/W$Job" = .ok (file, s') ∧
      ((file.tables.find? "a/W$Job").bind (·.find? "<clinit> ()V")).isSome = true ∧
      ((file.tables.find? "a/W").bind (·.find? "lambda$0 ()V")).isSome = false ∧
      ((file.tables.find? "a/W$Map").bind (·.find? "get ()V")).isSome = false := by
  have htree : ∃ t ∈ workerSession.forest.trees, "a/W$Job" ∈ t.names ∧
      t.root.decl.isPackageInfo = false ∧
      (∀ n ∈ t.tree.toList, (TypeSketch.moduleOf? n.decl).isNone = true) ∧
      let steps := walk (workerBodies.kit workerOptions Unit) 0
        (t.sprouted (workerBodies.kit workerOptions Unit).renderer).tree
      (∃ e ∈ entered steps, e.node.name = "a/W$Job" ∧ ∃ m ∈ e.node.decl.methods,
        m.key = "<clinit> ()V" ∧
          workerBodies.Filed (σ := Unit) workerOptions ⟨e.level, e.node, m⟩) ∧
      (∀ e ∈ entered steps, e.node.name = "a/W" → ∀ m ∈ e.node.decl.methods,
        m.key = "lambda$0 ()V" →
          ¬ workerBodies.Filed (σ := Unit) workerOptions ⟨e.level, e.node, m⟩) ∧
      ∀ e ∈ entered steps, e.node.name ≠ "a/W$Map" := by
    decide +kernel
  obtain ⟨t, ht, hn, hinfo, hmodules, hinit, hlambda, hmap⟩ := htree
  obtain ⟨file, s', hwrite, _, _, _, _, htables⟩ := written_methods workerOptions workerBodies
    (.ofList [worker, job, switchMap]) .keep () [] t ht hinfo
    (fun n hn => Option.isNone_iff_eq_none.mp (hmodules n hn.mem_toList)) "a/W$Job" hn
  refine ⟨file, s', hwrite, (htables _ _).mpr hinit, ?_, ?_⟩
  · rw [← Bool.not_eq_true, htables]
    rintro ⟨e, he, hname, m, hm, hkey, hfiled⟩
    exact hlambda e he hname m hm hkey hfiled
  · rw [← Bool.not_eq_true, htables]
    rintro ⟨e, he, hname, _⟩
    exact hmap e he hname

end Worker

end PreparedBodies

end ClassSketch
