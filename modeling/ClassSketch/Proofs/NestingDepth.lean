import ClassSketch.Proofs.ShiftedLines

/-! Classes one level deeper. Two runs stand side by side, the second one a level deeper. Whatever is
written between bodies is whole lines that are not empty, and empty lines; only enum constants leave a
line open for the comma or the semicolon that follows. So the second text is the first one moved,
provided that no body reads like a generated member of a record at one of the levels only. -/

namespace ClassSketch

open Text (Closed Within newlines shiftLines)

namespace Draft.Deepens

variable {l : Text.Layout} {inside : Option String} {d d' : Draft}

theorem text_eq (h : Deepens l inside d d') :
    d'.buffer.text = shiftLines l.indent d.buffer.text := by
  rw [h.deeper, Draft.deeper, h.layout]

theorem scope_eq (h : Deepens l inside d d') : d'.scope = d.scope := by rw [h.deeper, Draft.deeper]

theorem withMap (h : Deepens l inside d d') (map : LineMap) :
    Deepens l inside { d with lineMap := map } { d' with lineMap := map } where
  layout := h.layout
  closed := h.closed
  className := h.className
  deeper := by
    rw [h.deeper]
    rfl

theorem filled (hl : l.LineFed) (h : Deepens l inside d d') {text text' : String}
    (htext : Closed text) (hshift : shiftLines l.indent text = text')
    (hblank : Text.isBlankText text' = Text.isBlankText text)
    (hcount : newlines text' = newlines text) :
    Deepens l inside (MethodSketch.filled text d) (MethodSketch.filled text' d') := by
  have hfilled : ∀ {e : Draft} {s : String}, e.buffer.layout = l → Closed s →
      MethodSketch.filled s e =
        if Text.isBlankText s then e else e.add s (newlines s) := by
    rintro e s rfl hs
    rw [MethodSketch.filled]
    split
    · rfl
    · next hsome =>
      obtain rfl | ⟨r, rfl⟩ := hs
      · exact absurd rfl hsome
      · rw [MethodSketch.writeBody, hl.separator, if_pos (Text.endsWith_lineFeed r),
          Draft.appendText, hl.separator, Text.countLines_lineFeed, Draft.add]
  have htext' : Closed text' := hshift ▸ htext.shiftLines
  rw [hfilled h.layout htext, hfilled h.layout' htext', hblank]
  split
  · exact h
  · rw [hcount, ← hshift]
    exact h.add htext (newlines text)

end Draft.Deepens

namespace MethodSketch

variable {σ : Type}

theorem signatureText_ne (k : Kit σ) (n : ClassNode) (m : MethodDecl) (s : MethodShape)
    (b : Bench σ) : (signatureText k n m s b).1 ≠ "" := by
  have hparens : ∀ start params result : String, start ++ "(" ++ params ++ ")" ++ result ≠ "" :=
    fun _ _ _ => Text.append_ne_of_left (Text.append_ne_of_right _ (by decide)) _
  rw [signatureText]
  split
  · exact (by decide : "static" ≠ "")
  · split
    · exact (by decide : "init" ≠ "")
    · split <;> exact hparens _ _ _

theorem headText_ne (k : Kit σ) (n : ClassNode) (m : MethodDecl) (s : MethodShape) (b : Bench σ) :
    (headText k n m s b).1 ≠ "" := by
  rw [headText]
  split <;> exact Text.append_ne_of_right _ (signatureText_ne k n m s _)

end MethodSketch

namespace PreparedBodies

variable {σ : Type} {p : PreparedBodies} {o : Options} {v : Visit} {inside : Option String}
  {d d' : Draft}

/-- Prepared bodies neither fail nor leave anything behind. -/
theorem openBody_kit (head : String) {b : Bench σ}
    (hs : b.draft.scope.className = some v.node.name) :
    MethodSketch.openBody (p.kit o σ) v head b =
      let d := b.draft.writeLine v.level (head ++ " \x7b")
      let out := layOut (v.site o) (Text.lines (p.source v)) v.method.lineTable
        ⟨d.line, [], v.method.lineTable⟩
      (MethodSketch.fate (p.kit o σ) v (some (p.bodyText o v)),
        ⟨b.shop, MethodSketch.settle (p.kit o σ) v ⟨some (p.bodyText o v), out.2⟩ d⟩) := by
  have hanswered : ∀ t : Trace, MethodSketch.answered v
      ((p.kit o σ).renderer.body (v.site (p.kit o σ).options) t b.shop.memory) b.shop = b.shop := by
    intro t
    have hbody : (p.kit o σ).renderer.body (v.site (p.kit o σ).options) t b.shop.memory =
        ((.ok (p.render (v.site o) t).1, (p.render (v.site o) t).2), b.shop.memory) := rfl
    rw [hbody, render_eq_layOut]
    simp [MethodSketch.answered, MethodSketch.reports]
  have hrendered : ∀ line, MethodSketch.rendered (p.kit o σ) v line b.shop.memory =
      ⟨some (p.bodyText o v), (layOut (v.site o) (Text.lines (p.source v)) v.method.lineTable
        ⟨line, [], v.method.lineTable⟩).2⟩ := by
    intro line
    rw [rendered_kit, render_eq_layOut v ⟨line, [], v.method.lineTable⟩, bodyText]
  have happly := MethodSketch.openBody_apply (p.kit o σ) v head hs
  simp only [hrendered, hanswered] at happly
  exact happly

/-- What becomes of a draft over a body. -/
theorem deepens_settle (hl : o.layout.LineFed) (hv : p.Steady o v)
    (h : d.Deepens o.layout inside d') (trace : Trace) :
    (MethodSketch.settle (p.kit o σ) v ⟨some (p.bodyText o v), trace⟩ d).Deepens o.layout inside
      (MethodSketch.settle (p.kit o σ) v.deeper ⟨some (p.bodyText o v.deeper), trace⟩ d') := by
  obtain ⟨hcount, hclosed⟩ := whole_bodyText (p := p) hl v
  have hcount' := (whole_bodyText (p := p) hl v.deeper).1
  have hfilled := h.filled hl hclosed (shiftLines_bodyText hl v) (isBlankText_bodyText_deeper hl v)
    (hcount'.trans hcount.symm)
  have hbrace : ∀ {e e' : Draft}, e.Deepens o.layout inside e' →
      (MethodSketch.closed (p.kit o σ) (v.site o) trace v.level e).Deepens o.layout inside
        (MethodSketch.closed (p.kit o σ) (v.deeper.site o) trace v.deeper.level e') := by
    intro e e' he
    have hline := he.writeLine hl v.level (s := "\x7d") (by decide) (by decide)
    have hmapped := hline.withMap
      (e.lineMap.add v.node.decl.name v.method.key (trace.moveTo e.line))
    rw [he.deeper] at hmapped ⊢
    exact hmapped
  simp only [MethodSketch.settle, fate_deeper hl hv]
  split
  · exact hfilled
  · exact hbrace hfilled

end PreparedBodies

namespace TypeSketch

variable {σ : Type} {k : Kit σ} {hidden : List String}

theorem kind_ne_of_isShownMember {o : Options} {n : ClassNode}
    (h : isShownMember o hidden n = true) : n.kind ≠ .anonymous := by
  intro hkind
  rw [isShownMember, hkind] at h
  cases h

end TypeSketch

/-- Two runs side by side: their drafts are related, and they share everything else. -/
structure Beside {σ : Type} (D : Draft → Draft → Prop) (b b' : Bench σ) : Prop where
  drafts : D b.draft b'.draft
  shop : b'.shop = b.shop
  worded : b.shop.genealogy.Worded .oneLine

namespace Beside

variable {σ : Type} {D E : Draft → Draft → Prop} {l : Text.Layout} {inside : Option String}
  {b b' : Bench σ}

theorem edit (h : Beside D b b') {d d' : Draft} (hd : E d d') :
    Beside E { b with draft := d } { b' with draft := d' } :=
  ⟨hd, h.shop, h.worded⟩

theorem keeps_edit {f f' : Draft → Draft} (hf : ∀ d d', D d d' → D (f d) (f' d')) :
    Keeps (Beside (σ := σ) D) Anyhow (SketchM.edit f) (SketchM.edit f') :=
  Steps.edit f f' fun _ _ h => h.edit (hf _ _ h.drafts)

theorem keeps_editWhen (p : Bool) {f f' : Draft → Draft} (hf : ∀ d d', D d d' → D (f d) (f' d')) :
    Keeps (Beside (σ := σ) D) Anyhow (SketchM.editWhen p f) (SketchM.editWhen p f') :=
  Steps.editWhen p f f' fun _ _ h => h.edit (hf _ _ h.drafts)

theorem bench_eq (h : Beside (Draft.Deepens l inside) b b') : b' = ⟨b.shop, b.draft.deeper⟩ := by
  rw [← h.shop, ← h.drafts.deeper]

theorem withScope (h : Beside (Draft.Deepens l inside) b b') {s : Scope} {name : Option String}
    (hs : s.className = name) :
    Beside (Draft.Deepens l name) (Scoped.withScope b s) (Scoped.withScope b' s) := by
  obtain rfl := h.bench_eq
  exact ⟨⟨h.drafts.layout, h.drafts.closed, hs, rfl⟩, rfl, h.worded⟩

theorem note (h : Beside (Draft.Deepens l inside) b b') (n : ClassNode) (r : MethodSketch.Outcome) :
    Beside (Draft.Deepens l inside) (b.note n r) (b'.note n r) := by
  obtain rfl := h.bench_eq
  cases r with
  | written => exact h
  | hidden => exact h
  | failed =>
    exact ⟨⟨h.drafts.layout, h.drafts.closed, h.drafts.className, rfl⟩, rfl, h.worded⟩

/-- What is looked up is the same in both runs. No stroke is asked for: they are drawn by hand. -/
theorem lookups (l : Text.Layout) (inside : Option String) :
    Strokes .oneLine Wording.oneLine.good (fun _ _ => False) (fun _ => True)
      (Beside (σ := σ) (Draft.Deepens l inside)) where
  fits_of_within := Wording.oneLine.good_of_within
  fits_append := Wording.oneLine.good_append
  plain _ _ hL := hL.elim
  naming name _ b b' h := by
    obtain rfl := h.bench_eq
    exact ⟨rfl, ⟨h.drafts.layout, h.drafts.closed, h.drafts.className, rfl⟩, rfl, h.worded⟩
  signature c _ hc b b' h := by
    obtain rfl := h.bench_eq
    obtain ⟨hsignature, hworded⟩ := h.worded.signature hc
    exact ⟨⟨rfl, hsignature⟩, h.drafts, rfl, hworded⟩
  overriding c m ps b b' h := by
    have hworded := Override.genealogy_check c m ps Genealogy.Worded.stable h.worded
    have hafter : Beside (Draft.Deepens l inside) (Override.check c m ps b).2
        ⟨(Override.check c m ps b).2.shop, b'.draft⟩ := by
      refine ⟨?_, rfl, hworded⟩
      rw [Override.draft_check]
      exact h.drafts
    obtain rfl := h.bench_eq
    rw [Override.check_apply] at hafter ⊢
    rw [Override.check_apply]
    split
    · exact ⟨rfl, h⟩
    · next hinherited =>
      rw [if_neg hinherited] at hafter
      exact ⟨rfl, hafter⟩

section Header

theorem keeps_header (hl : l.LineFed) (k : Kit σ) {n : ClassNode} (hkind : n.kind ≠ .anonymous)
    (hn : Wording.oneLine.Holds n.texts) (level : Nat) :
    Keeps (Beside (Draft.Deepens l inside)) Anyhow (Header.sketch k n level)
      (Header.sketch k n (level + 1)) := by
  have hannotations := n.decl.annotations_holds (n.decl_holds hn)
  have hremarks := Strokes.within_classRemarks hn
  have hnamed : (n.kind == .anonymous) = false := beq_eq_false_iff_ne.mpr hkind
  simp only [Header.sketch, hnamed, Bool.false_eq_true, if_false]
  refine (keeps_edit fun d d' h => h.leadLines hl level _ hannotations hremarks).seq ?_
  refine ((lookups l inside).declarationText k trivial hn).bindSame ?_
  rintro _ ⟨text, htext, rfl⟩
  have hline : OneLine (text ++ " \x7b") := Text.within_append.mpr ⟨htext, by decide⟩
  have hne : text ++ " \x7b" ≠ "" := Text.append_ne_of_right text (by decide)
  exact keeps_edit fun d d' h => h.writeLine hl level hline hne

theorem keeps_closingBrace (hl : l.LineFed) {n : ClassNode} (hkind : n.kind ≠ .anonymous)
    (level : Nat) :
    Keeps (Beside (σ := σ) (Draft.Deepens l inside)) Anyhow
      (SketchM.edit (TypeSketch.closingBrace n level))
      (SketchM.edit (TypeSketch.closingBrace n (level + 1))) := by
  have hnamed : (n.kind == .anonymous) = false := beq_eq_false_iff_ne.mpr hkind
  have hbrace : ∀ level, TypeSketch.closingBrace n level = Draft.writeLine level "\x7d" := by
    intro level
    funext d
    simp only [TypeSketch.closingBrace, hnamed, Bool.false_eq_true, if_false]
    rfl
  rw [hbrace, hbrace]
  exact keeps_edit fun d d' h => h.writeLine hl level (by decide) (by decide)

end Header

section Fields

variable {k : Kit σ} {c : ClassDecl} {f : FieldDecl}

theorem annotations_oneLine (hf : Wording.oneLine.Holds f.texts) : ∀ s ∈ f.annotations, OneLine s :=
  fun s hs => hf s (by simp [FieldDecl.texts, hs])

/-- A constant leaves its line open. -/
theorem pends_sketchConstant (hl : l.LineFed) (hvalue : k.Values OneLine c f)
    (hf : Wording.oneLine.Holds f.texts) (level : Nat) (h : Beside (Draft.Deepens l inside) b b') :
    Beside (Draft.Pends l inside) (FieldSketch.sketchConstant k c f level b).2
      (FieldSketch.sketchConstant k c f (level + 1) b').2 := by
  have hname : OneLine f.name := hf _ (by simp [FieldDecl.texts])
  -- The name and the arguments are one text, and the level stands only before it.
  obtain ⟨text, htext, hconstant⟩ : ∃ text, OneLine text ∧ ∀ level,
      FieldSketch.sketchConstant k c f level = SketchM.edit fun d =>
        ((leadLines f.deprecated f.annotations [] level d).appendIndent level).append text := by
    cases hi : k.renderer.initializer c f with
    | none => exact ⟨f.name, hname, fun level => by simp only [FieldSketch.sketchConstant, hi]⟩
    | some args =>
      by_cases he : args.isEmpty = true
      · exact ⟨f.name, hname, fun level => by simp only [FieldSketch.sketchConstant, hi, he, if_true]⟩
      · refine ⟨f.name ++ ("(" ++ args ++ ")"), ?_, fun level => ?_⟩
        · have hopened : OneLine ("(" ++ args) :=
            Text.within_append.mpr ⟨by decide, hvalue.arguments args hi⟩
          exact Text.within_append.mpr ⟨hname, Text.within_append.mpr ⟨hopened, by decide⟩⟩
        · simp only [FieldSketch.sketchConstant, hi, he, Bool.false_eq_true, if_false,
            Draft.append_append]
  rw [hconstant, hconstant]
  have hlead := h.drafts.leadLines hl level f.deprecated (annotations_oneLine hf)
    (List.forall_mem_nil _)
  exact h.edit (hlead.pends hl level htext)

theorem keeps_sketchField (hl : l.LineFed) (hvalue : k.Values OneLine c f)
    (hf : Wording.oneLine.Holds f.texts) (level : Nat) :
    Keeps (Beside (Draft.Deepens l inside)) Anyhow (FieldSketch.sketchField k c f level)
      (FieldSketch.sketchField k c f (level + 1)) := by
  have hremarks := Strokes.within_fieldRemarks (w := .oneLine) f
  refine (keeps_edit fun d d' h => h.leadLines hl level _ (annotations_oneLine hf) hremarks).seq ?_
  have htype := FieldSketch.shownType_worded hf k.options
  refine ((lookups l inside).typeText htype).bindSame fun type htype => ?_
  have hstart := Strokes.within_fieldStart c hf htype
  have hline := Text.within_append.mpr ⟨hstart, hvalue.value (FieldSketch.shownType k.options f)⟩
  refine keeps_edit fun d d' h => h.writeLine hl level hline ?_
  exact Text.append_ne_of_left (Text.append_ne_of_right _ (by decide)) _

/-- After a constant its line is open, and whole lines stand there otherwise. -/
def Between (l : Text.Layout) (inside : Option String) : Bool → Draft → Draft → Prop
  | true => Draft.Pends l inside
  | false => Draft.Deepens l inside

theorem deepens_editWhen {inGroup : Bool} {e : Draft → Draft}
    (he : ∀ d d', Draft.Pends l inside d d' → Draft.Deepens l inside (e d) (e d'))
    (h : Beside (Between l inside inGroup) b b') :
    Beside (Draft.Deepens l inside) (SketchM.editWhen inGroup e b).2
      (SketchM.editWhen inGroup e b').2 := by
  cases inGroup with
  | false => exact h
  | true => exact h.edit (he _ _ h.drafts)

theorem deepens_sketchFieldsFrom (hl : l.LineFed) {fs : List FieldDecl}
    (hvalues : ∀ f ∈ fs, k.Values OneLine c f) (hfs : ∀ f ∈ fs, Wording.oneLine.Holds f.texts)
    (level : Nat) {inGroup : Bool} (h : Beside (Between l inside inGroup) b b') :
    Beside (Draft.Deepens l inside) (FieldSketch.sketchFrom k c level inGroup fs b).2
      (FieldSketch.sketchFrom k c (level + 1) inGroup fs b').2 := by
  induction fs generalizing inGroup b b' with
  | nil => exact deepens_editWhen (fun d d' h => h.stop hl (by decide) (by decide)) h
  | cons f fs ih =>
    obtain ⟨hvalue, hvalues⟩ := List.forall_mem_cons.mp hvalues
    obtain ⟨hf, hfs⟩ := List.forall_mem_cons.mp hfs
    simp only [FieldSketch.sketchFrom]
    -- The line of a constant before this field is ended first, so whole lines stand there.
    split
    · have hcomma := deepens_editWhen (e := fun d => (d.append ",").endLine)
        (fun d d' h => h.stop hl (by decide) (by decide)) h
      have hconstant : Beside (Between l inside true) _ _ :=
        pends_sketchConstant hl hvalue hf level hcomma
      exact ih hvalues hfs hconstant
    · have hsemicolon := deepens_editWhen (e := fun d => ((d.append ";").endLine).endLine)
        (fun d d' h => (h.stop hl (by decide) (by decide)).endLine hl) h
      have hfield : Beside (Between l inside false) _ _ :=
        (keeps_sketchField hl hvalue hf level _ _ hsemicolon).2
      exact ih hvalues hfs hfield

theorem keeps_sketchFields (hl : l.LineFed) (hk : k.Worded .oneLine) (hidden : List String)
    (hc : Wording.oneLine.Holds c.texts) (level : Nat) :
    Keeps (Beside (Draft.Deepens l inside)) Eq (FieldSketch.sketchAll k hidden c level)
      (FieldSketch.sketchAll k hidden c (level + 1)) := by
  have hfs : ∀ f ∈ c.fields.filter fun f => !FieldSketch.isHidden k.options hidden c f,
      Wording.oneLine.Holds f.texts := fun f hf => c.field_holds hc (List.mem_filter.mp hf).1
  have hfrom : ∀ fs : List FieldDecl, (∀ f ∈ fs, Wording.oneLine.Holds f.texts) →
      Keeps (Beside (Draft.Deepens l inside)) Anyhow (FieldSketch.sketchFrom k c level false fs)
        (FieldSketch.sketchFrom k c (level + 1) false fs) := by
    intro fs hfs b b' h
    have hopen : Beside (Between l inside false) b b' := h
    exact ⟨trivial, deepens_sketchFieldsFrom hl (fun f _ => hk.values c f) hfs level hopen⟩
  exact (hfrom _ hfs).seq (Keeps.pure rfl)

end Fields

section Methods

theorem keeps_sketchLead (hl : l.LineFed) {m : MethodDecl} (hm : Wording.oneLine.Holds m.texts)
    {s : MethodShape} (hs : s.Worded .oneLine) (level : Nat) :
    Keeps (Beside (σ := σ) (Draft.Deepens l inside)) Anyhow (MethodSketch.sketchLead m s level)
      (MethodSketch.sketchLead m s (level + 1)) := by
  have ha : ∀ a ∈ m.annotations, OneLine a := fun a ha => hm a (by simp [MethodDecl.texts, ha])
  have hremarks := Strokes.within_methodRemarks (w := .oneLine) m
  refine (keeps_edit fun d d' h => h.leadLines hl level _ ha hremarks).seq ?_
  refine ((lookups l inside).typeTexts hs.throws).bindSame fun texts htexts => ?_
  refine keeps_editWhen _ fun d d' h => h.writeLine hl level (Strokes.within_throws htexts) ?_
  exact Text.append_ne_of_right _ (by decide)

theorem keeps_leadAndHead (hl : l.LineFed) {k : Kit σ} (hk : k.Worded .oneLine) {v : Visit}
    (hm : Wording.oneLine.Holds v.method.texts) :
    Keeps (Beside (Draft.Deepens l inside)) (Same fun s => OneLine s ∧ s ≠ "")
      (MethodSketch.leadAndHead k v) (MethodSketch.leadAndHead k v.deeper) := by
  have hs : (v.shape k).Worded .oneLine := MethodShape.ofMethod_worded k v.node hm
  refine (keeps_sketchLead hl hm hs v.level).seq fun b b' h => ?_
  obtain ⟨⟨heq, hhead⟩, hafter⟩ := (lookups l inside).headText hk v.node hm hs b b' h
  exact ⟨⟨heq, hhead, MethodSketch.headText_ne k v.node v.method (v.shape k) b⟩, hafter⟩

variable {p : PreparedBodies} {o : Options} {v : Visit} {head : String}

theorem keeps_openBody (hl : o.layout.LineFed) (hv : p.Steady o v) (hhead : OneLine head) :
    Keeps (Beside (Draft.Deepens o.layout (some v.node.name))) Eq
      (MethodSketch.openBody (p.kit o σ) v head)
      (MethodSketch.openBody (p.kit o σ) v.deeper head) := by
  intro b b' h
  have hline : OneLine (head ++ " \x7b") := Text.within_append.mpr ⟨hhead, by decide⟩
  have hopened := h.drafts.writeLine hl v.level hline (Text.append_ne_of_right head (by decide))
  have hscope : b'.draft.scope.className = some v.deeper.node.name := by
    rw [h.drafts.scope_eq]
    exact h.drafts.className
  have hline' : (b'.draft.writeLine v.deeper.level (head ++ " \x7b")).line =
      (b.draft.writeLine v.level (head ++ " \x7b")).line := by
    rw [h.drafts.deeper]
    rfl
  have htrace : ∀ t, (PreparedBodies.layOut (v.deeper.site o) (Text.lines (p.source v.deeper))
      v.deeper.method.lineTable t).2 =
        (PreparedBodies.layOut (v.site o) (Text.lines (p.source v)) v.method.lineTable t).2 :=
    fun _ => PreparedBodies.trace_layOut (v.site o) _ _ _ _
  rw [PreparedBodies.openBody_kit head h.drafts.className,
    PreparedBodies.openBody_kit (v := v.deeper) head hscope]
  simp only [hline', htrace, PreparedBodies.fate_deeper hl hv, h.shop]
  exact ⟨trivial, PreparedBodies.deepens_settle hl hv hopened _, rfl, h.worded⟩

theorem keeps_afterHead (hl : o.layout.LineFed)
    (hv : v.hasBody (p.kit o σ) = true → p.Steady o v) (hm : Wording.oneLine.Holds v.method.texts)
    (hhead : OneLine head) (hne : head ≠ "") :
    Keeps (Beside (Draft.Deepens o.layout (some v.node.name))) Eq
      (MethodSketch.afterHead (p.kit o σ) v head)
      (MethodSketch.afterHead (p.kit o σ) v.deeper head) := by
  have hbody : v.deeper.hasBody (p.kit o σ) = v.hasBody (p.kit o σ) := rfl
  rw [MethodSketch.afterHead, MethodSketch.afterHead, hbody]
  split
  · next hbody => exact keeps_openBody hl (hv hbody) hhead
  · have hline := Tracks.within_bareLine (w := .oneLine) hm hhead
    have hlineNe : MethodSketch.bareLine v.method head ≠ "" := Text.append_ne_of_left hne _
    exact (keeps_edit fun d d' h => h.writeLine hl v.level hline hlineNe).seq (Keeps.pure rfl)

theorem keeps_sketchOne (hl : o.layout.LineFed) (hk : (p.kit o σ).Worded .oneLine)
    (hv : v.hasBody (p.kit o σ) = true → p.Steady o v)
    (hm : Wording.oneLine.Holds v.method.texts) :
    Keeps (Beside (Draft.Deepens o.layout (some v.node.name))) Eq
      (MethodSketch.sketchOne (p.kit o σ) v.node v.method v.level)
      (MethodSketch.sketchOne (p.kit o σ) v.deeper.node v.deeper.method v.deeper.level) := by
  intro b b' h
  have hlead := keeps_leadAndHead hl hk hm _ _
    (h.withScope (s := b.draft.scope.enterMethod v.method.key) h.drafts.className)
  have hkey : v.deeper.method.key = v.method.key := rfl
  rw [MethodSketch.sketchOne_apply, MethodSketch.sketchOne_apply, h.drafts.scope_eq, hkey]
  generalize MethodSketch.leadAndHead (p.kit o σ) v _ = lead at hlead ⊢
  generalize MethodSketch.leadAndHead (p.kit o σ) v.deeper _ = lead' at hlead ⊢
  obtain ⟨head, c⟩ := lead
  obtain ⟨_, c'⟩ := lead'
  obtain ⟨⟨rfl, hhead, hne⟩, hc⟩ := hlead
  obtain ⟨heq, hafter⟩ := keeps_afterHead hl hv hm hhead hne c c' hc
  exact ⟨heq, hafter.withScope h.drafts.className⟩

theorem keeps_sketchNext (hl : o.layout.LineFed) (hk : (p.kit o σ).Worded .oneLine)
    (hv : v.hasBody (p.kit o σ) = true → p.Steady o v)
    (hm : Wording.oneLine.Holds v.method.texts) (content : Bool) :
    Keeps (Beside (Draft.Deepens o.layout (some v.node.name))) Eq
      (MethodSketch.sketchNext (p.kit o σ) v content)
      (MethodSketch.sketchNext (p.kit o σ) v.deeper content) := by
  intro b b' h
  obtain ⟨_, hblank⟩ := keeps_editWhen content (fun d d' h => h.endLine hl) b b' h
  have hone := keeps_sketchOne hl hk hv hm _ _ hblank
  rw [MethodSketch.sketchNext_apply, MethodSketch.sketchNext_apply]
  dsimp only
  generalize MethodSketch.sketchOne (p.kit o σ) v.node v.method v.level _ = r at hone ⊢
  generalize MethodSketch.sketchOne (p.kit o σ) v.deeper.node _ _ _ = r' at hone ⊢
  obtain ⟨outcome, c⟩ := r
  obtain ⟨_, c'⟩ := r'
  obtain ⟨rfl, hc⟩ := hone
  -- Both runs go back to the drafts from before the empty line, or neither does.
  split
  · exact ⟨rfl, hc.edit (hc.drafts.rewind h.drafts)⟩
  · exact ⟨rfl, hc.note v.node outcome⟩

theorem keeps_sketchMethods (hl : o.layout.LineFed) (hk : (p.kit o σ).Worded .oneLine)
    {n : ClassNode} {level : Nat} {ms : List MethodDecl}
    (hv : ∀ m ∈ ms, Visit.hasBody (p.kit o σ) ⟨level, n, m⟩ = true → p.Steady o ⟨level, n, m⟩)
    (hms : ∀ m ∈ ms, Wording.oneLine.Holds m.texts) (content : Bool) :
    Keeps (Beside (Draft.Deepens o.layout (some n.name))) Eq
      (MethodSketch.sketchFrom (p.kit o σ) n level content ms)
      (MethodSketch.sketchFrom (p.kit o σ) n (level + 1) content ms) := by
  induction ms generalizing content with
  | nil => exact Keeps.pure rfl
  | cons m ms ih =>
    obtain ⟨hfirst, hv⟩ := List.forall_mem_cons.mp hv
    obtain ⟨hm, hms⟩ := List.forall_mem_cons.mp hms
    rw [MethodSketch.sketchFrom_cons, MethodSketch.sketchFrom_cons]
    refine (keeps_sketchNext hl hk hfirst hm content).bind ?_
    rintro content _ rfl
    exact ih hv hms content

end Methods

section Classes

variable {p : PreparedBodies} {o : Options} {level : Nat} {n : ClassNode}
  {ts : List (Tree ClassNode)}

theorem keeps_sketchMembers (hl : l.LineFed) {k : Kit σ} {hidden : List String}
    (hts : ∀ t ∈ ts, TypeSketch.isShownMember k.options hidden t.value = true →
      Keeps (Beside (Draft.Deepens l inside)) Anyhow (TypeSketch.sketch k level t)
        (TypeSketch.sketch k (level + 1) t)) (content : Bool) :
    Keeps (Beside (Draft.Deepens l inside)) Anyhow
      (TypeSketch.sketchMembers k hidden level content ts)
      (TypeSketch.sketchMembers k hidden (level + 1) content ts) := by
  induction ts generalizing content with
  | nil =>
    rw [TypeSketch.sketchMembers, TypeSketch.sketchMembers]
    exact Keeps.pure trivial
  | cons t ts ih =>
    obtain ⟨ht, hts⟩ := List.forall_mem_cons.mp hts
    rw [TypeSketch.sketchMembers, TypeSketch.sketchMembers]
    split
    · next hshown =>
      refine (keeps_editWhen content fun d d' h => h.endLine hl).seq ?_
      exact (ht hshown).seq (ih hts true)
    · exact ih hts content

theorem keeps_sketchInside (hl : o.layout.LineFed) (hk : (p.kit o σ).Worded .oneLine)
    (hn : Wording.oneLine.Holds n.texts)
    (hv : ∀ v ∈ TypeSketch.insideVisits (p.kit o σ) level n ts,
      v.hasBody (p.kit o σ) = true → p.Steady o v)
    (hts : ∀ t ∈ ts, t.value.kind ≠ .anonymous →
      (∀ v ∈ TypeSketch.visits (p.kit o σ) level t, v.hasBody (p.kit o σ) = true → p.Steady o v) →
      Keeps (Beside (Draft.Deepens o.layout (some n.name))) Anyhow
        (TypeSketch.sketch (p.kit o σ) level t) (TypeSketch.sketch (p.kit o σ) (level + 1) t)) :
    Keeps (Beside (Draft.Deepens o.layout (some n.name))) Anyhow
      (TypeSketch.sketchInside (p.kit o σ) level n ts)
      (TypeSketch.sketchInside (p.kit o σ) (level + 1) n ts) := by
  have hc := n.decl_holds hn
  refine (keeps_sketchFields hl hk _ hc level).bind ?_
  rintro content _ rfl
  have hmethods := keeps_sketchMethods (σ := σ) hl hk
    (fun m hm => hv _ (List.mem_append_left _ (List.mem_map_of_mem hm)))
    (fun m hm => n.decl.method_holds hc (List.mem_filter.mp hm).1) content
  refine hmethods.bind ?_
  rintro content _ rfl
  refine keeps_sketchMembers hl (fun t ht hshown => ?_) content
  refine hts t ht (TypeSketch.kind_ne_of_isShownMember hshown) fun v hin => hv v ?_
  exact List.mem_append_right _ (TypeSketch.mem_visits_of_isShownMember ht hshown hin)

theorem keeps_sketchPlain (hl : o.layout.LineFed) (hk : (p.kit o σ).Worded .oneLine)
    (hkind : n.kind ≠ .anonymous) (hn : Wording.oneLine.Holds n.texts)
    (hv : ∀ v ∈ TypeSketch.insideVisits (p.kit o σ) (TypeSketch.memberLevel n level) n ts,
      v.hasBody (p.kit o σ) = true → p.Steady o v)
    (hts : ∀ level, ∀ t ∈ ts, t.value.kind ≠ .anonymous →
      (∀ v ∈ TypeSketch.visits (p.kit o σ) level t, v.hasBody (p.kit o σ) = true → p.Steady o v) →
      Keeps (Beside (Draft.Deepens o.layout (some n.name))) Anyhow
        (TypeSketch.sketch (p.kit o σ) level t) (TypeSketch.sketch (p.kit o σ) (level + 1) t)) :
    Keeps (Beside (Draft.Deepens o.layout (some n.name))) Anyhow
      (TypeSketch.sketchPlain (p.kit o σ) level n ts)
      (TypeSketch.sketchPlain (p.kit o σ) (level + 1) n ts) := by
  rw [TypeSketch.memberLevel] at hv
  rw [TypeSketch.sketchPlain, TypeSketch.sketchPlain]
  split
  · next hfacade =>
    rw [if_pos hfacade] at hv
    exact keeps_sketchInside hl hk hn hv (hts level)
  · next hfacade =>
    rw [if_neg hfacade] at hv
    refine (keeps_header hl _ hkind hn level).seq ?_
    refine (keeps_sketchInside hl hk hn hv (hts (level + 1))).seq ?_
    exact keeps_closingBrace hl hkind level

/-- A class with everything inside it, one level deeper. -/
theorem keeps_sketch (hl : o.layout.LineFed) (hk : (p.kit o σ).Worded .oneLine)
    {t : Tree ClassNode} (hkind : t.value.kind ≠ .anonymous)
    (hmodules : ∀ n ∈ t.toList, TypeSketch.moduleOf? n.decl = none)
    (htexts : ∀ n ∈ t.toList, Wording.oneLine.Holds n.texts)
    (hv : ∀ v ∈ TypeSketch.visits (p.kit o σ) level t,
      v.hasBody (p.kit o σ) = true → p.Steady o v) :
    Keeps (Beside (Draft.Deepens o.layout inside)) Anyhow (TypeSketch.sketch (p.kit o σ) level t)
      (TypeSketch.sketch (p.kit o σ) (level + 1) t) := by
  induction t generalizing level inside with
  | node n ts ih =>
    have hmodule := hmodules n (by simp)
    rw [TypeSketch.visits_node, hmodule, Option.isSome_none, if_neg Bool.false_ne_true] at hv
    have hplain := keeps_sketchPlain hl hk hkind (htexts n (by simp)) hv
      fun level t ht hkind hsteady => ih t ht hkind
        (fun m hm => hmodules m (Tree.mem_toList_of_child ht hm))
        (fun m hm => htexts m (Tree.mem_toList_of_child ht hm)) hsteady
    -- The class is written in its own scope, and the scope from before comes back.
    intro b b' h
    refine ⟨trivial, ?_⟩
    rw [TypeSketch.sketch_node, TypeSketch.sketch_node, hmodule, h.drafts.scope_eq]
    have hin := h.withScope (s := b.draft.scope.enterClass n.name) rfl
    exact (hplain _ _ hin).2.withScope h.drafts.className

end Classes

end Beside

namespace Workshop

variable {σ : Type}

/-- One level deeper, the text of a class is its text with an indent before each line that is not
empty. -/
theorem text_draftClass_succ (p : PreparedBodies) (o : Options) (hl : o.layout.LineFed)
    (shop : Workshop σ) (root : String) (level : Nat) (t : Tree ClassNode)
    (hkind : t.value.kind ≠ .anonymous)
    (hmodules : ∀ n ∈ t.toList, TypeSketch.moduleOf? n.decl = none)
    (hone : SingleLined (p.kit o σ) t shop.genealogy)
    (hsteady : ∀ v ∈ TypeSketch.visits (p.kit o σ) level t,
      v.hasBody (p.kit o σ) = true → p.Steady o v) :
    (shop.draftClass (p.kit o σ) root (level + 1) t).1.buffer.text =
      shiftLines o.layout.indent (shop.draftClass (p.kit o σ) root level t).1.buffer.text := by
  have hstart : Beside (Draft.Deepens o.layout none) ⟨shop, .ofRoot root o.layout⟩
      ⟨shop, .ofRoot root o.layout⟩ := by
    refine ⟨⟨rfl, .inl rfl, rfl, ?_⟩, rfl, hone.genealogy⟩
    have hempty : (Draft.ofRoot root o.layout).buffer.text = "" := rfl
    rw [Draft.deeper, hempty, Text.shiftLines_empty]
    rfl
  have hend := (Beside.keeps_sketch hl hone.renderer hkind hmodules hone.nodes hsteady _ _ hstart).2
  rw [draftClass_apply, draftClass_apply]
  exact hend.drafts.text_eq

section Nested

def sides : ClassDecl where
  name := "a/A$E"
  access := ⟨16401⟩
  superclass := some "java/lang/Enum"
  fields :=
    [{ name := "L", descriptor := "La/A$E;", access := ⟨16409⟩ },
      { name := "R", descriptor := "La/A$E;", access := ⟨16409⟩ },
      { name := "f", descriptor := "I", access := ⟨2⟩ }]

/-- A record with the accessor that the compiler adds and a method of its own. -/
def doubling : ClassDecl where
  name := "a/A$P"
  access := ⟨17⟩
  superclass := some "java/lang/Record"
  recordParts := some [{ name := "x", descriptor := "I" }]
  methods :=
    [{ name := "x", descriptor := "()I", access := ⟨1⟩ },
      { name := "twice", descriptor := "()I", access := ⟨1⟩ }]

def holder : ClassDecl where
  name := "a/A"
  access := ⟨1⟩
  superclass := some "java/lang/Object"

def holderTree : Tree ClassNode :=
  .node (.ofDecl holder)
    [.node { ClassNode.ofDecl sides with kind := .member, simpleName := some "E" } [],
      .node { ClassNode.ofDecl doubling with kind := .member, simpleName := some "P" } []]

def holderBodies : PreparedBodies where
  bodies := [("a/A$P x ()I", "return this.x;"), ("a/A$P twice ()I", "int y = x;\n\nreturn y + y;")]
  initializers := [("a/A$E L La/A$E;", "1")]

def holderShop : Workshop Unit where
  genealogy := { library := .ofList [holder, sides, doubling] }
  memory := ()

def holderDraft (level : Nat) : Draft :=
  (holderShop.draftClass (holderBodies.kit {} Unit) "a/A" level holderTree).1

theorem text_draftClass_holder :
    (holderDraft 0).buffer.text =
        "open class A \x7b\n   enum class E \x7b\n      L(1),\n      R;\n\n" ++
        "      private var f: int = 0\n   \x7d\n\n   inner data class P(x: int) \x7b\n" ++
        "      fun twice(): int \x7b\n         int y = x;\n         \n         return y + y;\n" ++
        "      \x7d\n   \x7d\n\x7d\n" ∧
      (holderDraft 1).buffer.text = shiftLines "   " (holderDraft 0).buffer.text := by
  have hl : Text.Layout.LineFed {} := ⟨rfl, by decide⟩
  have hlibrary : ∀ c ∈ [holder, sides, doubling], ∀ s ∈ c.texts, OneLine s := by decide +kernel
  have hnodes : ∀ n ∈ holderTree.toList, ∀ s ∈ n.texts, OneLine s := by decide +kernel
  have hmodules : ∀ n ∈ holderTree.toList, TypeSketch.moduleOf? n.decl = none := by decide +kernel
  have hpool : holderShop.genealogy.library.pool = [] := rfl
  have hvalues : ∀ e ∈ holderBodies.initializers, OneLine e.2 := by decide
  have hone : SingleLined (holderBodies.kit {} Unit) holderTree holderShop.genealogy :=
    ⟨hnodes, ⟨hlibrary, by simp [hpool]⟩, PreparedBodies.worded_kit hvalues {}⟩
  have hblank : Text.isBlankText ({} : Text.Layout).indent = true := by decide
  have hindent : ({} : Options).layout.indent = "   " := rfl
  have htext := text_draftClass_succ holderBodies {} hl holderShop "a/A" 0 holderTree (by decide)
    hmodules hone fun v _ _ => PreparedBodies.steady_of_blank hl hblank v
  refine ⟨by decide +kernel, ?_⟩
  rw [Nat.zero_add, hindent] at htext
  rw [holderDraft, holderDraft]
  exact htext

end Nested

section Accessor

/-- A record of top-level declarations with a method that has the name of a component. -/
def accessorRecord : ClassDecl where
  name := "a/R"
  access := ⟨17⟩
  superclass := some "java/lang/Record"
  recordParts := some [{ name := "x", descriptor := "I" }]
  metadata := some { kind := .fileFacade }
  methods := [{ name := "x", descriptor := "()I", access := ⟨1⟩ }]

def accessorTree : Tree ClassNode := .node (.ofDecl accessorRecord) []

def accessorKit : Kit Unit :=
  PreparedBodies.kit { bodies := [("a/R x ()I", "x;")] }
    { layout := { indent := "return this." } } Unit

def accessorShop : Workshop Unit where
  genealogy := { library := .ofList [accessorRecord] }
  memory := ()

def accessorDraft (level : Nat) : Draft :=
  (accessorShop.draftClass accessorKit "a/R" level accessorTree).1

/-- After one indent the body reads like the accessor that the compiler adds, after two it does
not. -/
theorem indent_completes_accessor :
    accessorKit.options.layout.LineFed ∧ accessorTree.value.kind = .root ∧
      (∀ n ∈ accessorTree.toList, TypeSketch.moduleOf? n.decl = none) ∧
      SingleLined accessorKit accessorTree accessorShop.genealogy ∧
      (accessorDraft 0).buffer.text = "" ∧
      (accessorDraft 1).buffer.text = "return this.fun x(): int \x7b\n" ++
        "return this.return this.x;\nreturn this.\x7d\n" ∧
      (accessorDraft 1).buffer.text ≠ shiftLines "return this." (accessorDraft 0).buffer.text := by
  have hlibrary : ∀ c ∈ [accessorRecord], ∀ s ∈ c.texts, OneLine s := by decide +kernel
  have hnodes : ∀ n ∈ accessorTree.toList, ∀ s ∈ n.texts, OneLine s := by decide +kernel
  have hpool : accessorShop.genealogy.library.pool = [] := rfl
  have hone : SingleLined accessorKit accessorTree accessorShop.genealogy :=
    ⟨hnodes, ⟨hlibrary, by simp [hpool]⟩, PreparedBodies.worded_kit (by decide) _⟩
  have hempty : (accessorDraft 0).buffer.text = "" := by decide +kernel
  refine ⟨⟨rfl, by decide⟩, rfl, by decide +kernel, hone, hempty, by decide +kernel, ?_⟩
  rw [hempty, Text.shiftLines_empty]
  decide +kernel

end Accessor

end Workshop

end ClassSketch
