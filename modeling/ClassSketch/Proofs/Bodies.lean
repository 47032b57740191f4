import ClassSketch.Proofs.Visits

/-! What a method with a body does to a draft, as a function of what its renderer gave. A property
of single drafts that strokes keep and that each such function takes one visit further holds after
a run. -/

namespace ClassSketch

open Text (Within)

namespace MethodSketch

variable {σ : Type}

/-- What is taken from the answer of a renderer that was asked on the given line. -/
def rendering (line : Nat) (answer : Except BodyFailure Body × Trace) : Rendered :=
  match answer.1 with
  | .ok body => if body.flagged then ⟨none, { line }⟩ else ⟨some body.text, answer.2⟩
  | .error _ => ⟨none, { line }⟩

/-- The warning that a failure leaves. -/
def reports (about : MethodSite) (answer : Except BodyFailure Body) : List Warning :=
  match answer with
  | .ok body => if body.flagged then [.flaggedBody about] else []
  | .error failure =>
    [match failure with
      | .crash _ => .crashedBody about failure.message
      | _ => .failedBody about failure.message]

/-- The draft with the closing brace and the offsets of the method. -/
def closed (k : Kit σ) (site : BodySite) (trace : Trace) (level : Nat) (d : Draft) : Draft :=
  let trace := trace.moveTo d.line
  let trace := match k.renderer.exitOffset site with
    | some offset => trace.mark offset
    | none => trace
  { d.writeLine level "\x7d" with
    lineMap := d.lineMap.add site.decl.name site.method.key trace }

/-- What becomes of a method, by the text of its body. -/
def fate (k : Kit σ) (v : Visit) : Option String → Outcome
  | none => .failed
  | some text =>
    if Text.isBlankText text &&
        isHiddenWhenEmpty k.options v.node v.method (v.shape k).visible.length then .hidden
    else if v.node.decl.isRecord && isGeneratedMember v.node.decl v.method text then .hidden
    else .written

/-- The draft with the text of a body, if there is any. -/
def filled (text : String) (d : Draft) : Draft :=
  if Text.isBlankText text then d else writeBody text d

/-- The draft after a method, from the draft after its head. -/
def settle (k : Kit σ) (v : Visit) (r : Rendered) (d : Draft) : Draft :=
  match r.text with
  | none =>
    closed k (v.site k.options) r.trace v.level (d.writeLine (v.level + 1) placeholder)
  | some text =>
    if fate k v (some text) = .hidden then filled text d
    else closed k (v.site k.options) r.trace v.level (filled text d)

theorem renderBody_apply (k : Kit σ) (site : BodySite) (b : Bench σ) :
    renderBody k site b =
      let answer := k.renderer.body site ⟨b.draft.line, [], site.method.lineTable⟩ b.shop.memory
      (rendering b.draft.line answer.1,
        { b with shop :=
          { b.shop with
            memory := answer.2
            warnings := b.shop.warnings ++
              reports ⟨site.decl.name, site.method.name, site.method.descriptor⟩ answer.1.1 } }) := by
  simp only [renderBody, bind, StateT.bind, get, getThe, MonadStateOf.get, StateT.get, pure,
    SketchM.inMemory]
  rcases k.renderer.body site ⟨b.draft.line, [], site.method.lineTable⟩ b.shop.memory with
    ⟨⟨r, t⟩, m⟩
  cases r with
  | error failure => rfl
  | ok body =>
    by_cases hf : body.flagged = true
    · simp only [hf, rendering, reports, if_true]
      rfl
    · simp only [hf, rendering, reports, Bool.false_eq_true, if_false, List.append_nil]
      rfl

/-- The bench after an answer about a body. -/
def answered (v : Visit) (answer : (Except BodyFailure Body × Trace) × σ) (shop : Workshop σ) :
    Workshop σ :=
  { shop with
    memory := answer.2
    warnings := shop.warnings ++
      reports ⟨v.node.decl.name, v.method.name, v.method.descriptor⟩ answer.1.1 }

theorem openBody_render (k : Kit σ) (v : Visit) (head : String) {b : Bench σ}
    (hs : b.draft.scope.className = some v.node.name) :
    openBody k v head b =
      let r := renderBody k (v.site k.options)
        { b with draft := b.draft.writeLine v.level (head ++ " \x7b") }
      (fate k v r.1.text, { r.2 with draft := settle k v r.1 r.2.draft }) := by
  have hsite : (⟨v.node.decl, v.method, v.level + 1, k.options.layout,
      b.draft.scope.className.getD v.node.decl.name⟩ : BodySite) = v.site k.options := by
    rw [hs, Option.getD_some, Visit.site]
  simp only [openBody, sketchBody, bind, StateT.bind, SketchM.edit, modify, modifyGet,
    MonadStateOf.modifyGet, StateT.modifyGet, pure, get, getThe, MonadStateOf.get, StateT.get,
    Draft.writeLine, hsite]
  generalize renderBody k (v.site k.options) _ = r
  rcases r with ⟨⟨text, trace⟩, c⟩
  cases text with
  | none => rfl
  | some text =>
    rcases hblank : Text.isBlankText text with _ | _ <;>
    rcases hempty : isHiddenWhenEmpty k.options v.node v.method (v.shape k).visible.length
      with _ | _ <;>
    rcases hgenerated : v.node.decl.isRecord && isGeneratedMember v.node.decl v.method text
      with _ | _ <;>
    simp only [settle, fate, filled, SketchM.editWhen, hblank, hempty, hgenerated, Bool.and_true,
      Bool.and_false, Bool.not_true, Bool.not_false, Bool.false_eq_true, if_true, if_false,
      reduceCtorEq] <;>
    rfl

/-- What a kit makes of a body that starts on the given line. -/
def rendered (k : Kit σ) (v : Visit) (line : Nat) (memory : σ) : Rendered :=
  rendering line
    (k.renderer.body (v.site k.options) ⟨line, [], v.method.lineTable⟩ memory).1

theorem openBody_apply (k : Kit σ) (v : Visit) (head : String) {b : Bench σ}
    (hs : b.draft.scope.className = some v.node.name) :
    openBody k v head b =
      let d := b.draft.writeLine v.level (head ++ " \x7b")
      let answer := k.renderer.body (v.site k.options) ⟨d.line, [], v.method.lineTable⟩ b.shop.memory
      let r := rendered k v d.line b.shop.memory
      (fate k v r.text, ⟨answered v answer b.shop, settle k v r d⟩) := by
  rw [openBody_render k v head hs, renderBody_apply]
  rfl

theorem lineMap_filled (text : String) (d : Draft) : (filled text d).lineMap = d.lineMap := by
  simp only [filled, writeBody]
  split
  · rfl
  · split <;> rfl

theorem imports_settle (k : Kit σ) (v : Visit) (r : Rendered) (d : Draft) :
    (settle k v r d).imports = d.imports := by
  have hfilled : ∀ text, (filled text d).imports = d.imports := by
    intro text
    simp only [filled, writeBody]
    split
    · rfl
    · split <;> rfl
  rw [settle]
  split
  · rfl
  · split <;> exact hfilled _

theorem lineMap_settle_of_hidden {k : Kit σ} {v : Visit} {r : Rendered} {d : Draft}
    (h : fate k v r.text = .hidden) : (settle k v r d).lineMap = d.lineMap := by
  rw [settle]
  cases ht : r.text with
  | none =>
    rw [ht, fate] at h
    cases h
  | some text =>
    rw [ht] at h
    simp only [h, if_true, lineMap_filled]

end MethodSketch

/-- A property of drafts, indexed by the visits so far, that depends on the text, the line and the
line map alone and that each visit takes one further. -/
structure Carries {σ : Type} (w : Wording) (k : Kit σ) (P : Visit → Prop)
    (I : List Visit → Draft → Prop) : Prop where
  page : ∀ {done d d'}, I done d → d'.buffer = d.buffer → d'.line = d.line →
    d'.lineMap = d.lineMap → I done d'
  draw : ∀ {done d level} (s : Stroke), w.good s.text → I done d → I done (d.draw level s)
  bodiless : ∀ {done v d}, P v → v.hasBody k = false → I done d → I (done ++ [v]) d
  hidden : ∀ {done v d line memory}, P v → v.hasBody k = true →
    MethodSketch.fate k v (MethodSketch.rendered k v line memory).text = .hidden →
    I done d → I (done ++ [v]) d
  shown : ∀ {done v d head} (memory : σ), P v → v.hasBody k = true → v.Headed w k head →
    I done d →
    let d' := d.writeLine v.level (head ++ " \x7b")
    MethodSketch.fate k v (MethodSketch.rendered k v d'.line memory).text ≠ .hidden →
    I (done ++ [v]) (MethodSketch.settle k v (MethodSketch.rendered k v d'.line memory) d')

namespace Carries

variable {σ : Type} {w : Wording} {k : Kit σ} {P : Visit → Prop} {I : List Visit → Draft → Prop}

/-- The property together with a library whose texts are over the alphabet. -/
def Holds (w : Wording) (I : List Visit → Draft → Prop) (done : List Visit) (b : Bench σ) : Prop :=
  I done b.draft ∧ b.shop.genealogy.Worded w

theorem steps (h : Carries w k P I) (done : List Visit) :
    Steps w Eq (fun _ => True) (Same (Holds (σ := σ) w I done)) where
  draw s hL hs hb := by
    obtain ⟨rfl, hI, hg⟩ := hb
    subst hL
    exact ⟨rfl, h.draw s hs hI, hg⟩
  spelling name b b' hb := by
    obtain ⟨rfl, hI, hg⟩ := hb
    exact ⟨rfl, rfl, h.page hI rfl rfl rfl, hg⟩
  signature c _ hc b b' hb := by
    obtain ⟨rfl, hI, hg⟩ := hb
    exact ⟨⟨rfl, (hg.signature hc).1⟩, rfl, hI, (hg.signature hc).2⟩
  overriding c m ps b b' hb := by
    obtain ⟨rfl, hI, hg⟩ := hb
    refine ⟨rfl, rfl, ?_, Override.genealogy_check c m ps Genealogy.Worded.stable hg⟩
    rw [Override.draft_check]
    exact hI

theorem follows (h : Carries w k P I) :
    Follows w Eq (fun _ => True) k k.renderer.body P (fun done => Same (Holds w I done)) where
  steps := h.steps
  scope_eq hb := congrArg (·.draft.scope) hb.1
  scope_free := by
    rintro done b _ s ⟨rfl, hI, hg⟩
    exact ⟨rfl, h.page hI rfl rfl rfl, hg⟩
  bodiless := by
    rintro done v b _ hP hbody ⟨rfl, hI, hg⟩
    exact ⟨rfl, h.bodiless hP hbody hI, hg⟩
  body := by
    rintro done v _ head before _ b _ hP hbody rfl hhead ⟨rfl, hI, hg⟩ ⟨rfl, hJ, hg'⟩ hmap _ hs
    have hshown := h.shown b.shop.memory hP hbody hhead hJ
    have hopened : (b.draft.writeLine v.level (head ++ " \x7b")).lineMap = b.draft.lineMap := rfl
    change Settles _ _ _ _ _ (MethodSketch.openBody k v head b)
    rw [MethodSketch.openBody_apply k v head hs]
    generalize b.draft.writeLine v.level (head ++ " \x7b") = d at hshown hopened ⊢
    dsimp only at hshown ⊢
    refine ⟨Iff.rfl, fun he => ⟨rfl, ?_, hg'⟩, fun hne => ⟨rfl, ?_, ?_⟩⟩
    · have hline := (MethodSketch.lineMap_settle_of_hidden (d := d) he).trans (hopened.trans hmap)
      exact h.hidden hP hbody he (h.page hI rfl rfl hline)
    · refine h.page (hshown hne) ?_ ?_ ?_ <;>
        cases MethodSketch.fate k v (MethodSketch.rendered k v d.line b.shop.memory).text <;> rfl
    · cases MethodSketch.fate k v (MethodSketch.rendered k v d.line b.shop.memory).text <;>
        exact hg'

/-- After a run the property holds with all visits behind it. -/
theorem sketch (h : Carries w k P I) (hk : k.Worded w) {t : Tree ClassNode}
    (htexts : ∀ n ∈ t.toList, w.Holds n.texts) {level : Nat}
    (hP : ∀ v ∈ TypeSketch.visits k level t, P v) {b : Bench σ} (hI : I [] b.draft)
    (hg : b.shop.genealogy.Worded w) :
    I (TypeSketch.visits k level t) (TypeSketch.sketch k level t b).2.draft ∧
      (TypeSketch.sketch k level t b).2.shop.genealogy.Worded w :=
  (h.follows.sketch hk (fun _ _ hl => congrArg (· + 1) hl) (fun _ _ => trivial) htexts
    (.inl fun _ => rfl) rfl hP [] b b ⟨rfl, hI, hg⟩).2

end Carries

end ClassSketch
