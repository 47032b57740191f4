import ClassSketch.Proofs.Files
import ClassSketch.Proofs.LineCount

/-! A body that fails costs the file that body and nothing else: the file is the one that results if
the placeholder is rendered in the body's place, and it is marked as failed. The two part only
where a placeholder reads like a line that the compiler adds to records. -/

namespace ClassSketch

/-- Nothing that could be used came of a body. -/
def isFailure : Except BodyFailure Body → Bool
  | .ok body => body.flagged
  | .error _ => true

/-- Rendering that neither reads nor leaves anything behind. -/
abbrev PureBody := BodySite → Trace → Except BodyFailure Body × Trace

def PureBody.run {σ : Type} (f : PureBody) (site : BodySite) (t : Trace) :
    StateM σ (Except BodyFailure Body × Trace) :=
  pure (f site t)

/-- The placeholder as a body. -/
def BodySite.placeholderLine (s : BodySite) : String :=
  s.layout.indentText s.level ++ placeholder ++ s.layout.separator

/-- At the sites in `F`, where `f` fails, `f'` renders the placeholder and marks no offsets. At all
other sites they are the same. -/
structure StandsIn (F : BodySite → Prop) (f f' : PureBody) : Prop where
  fails : ∀ site t, F site → isFailure (f site t).1 = true
  placed : ∀ site t, F site → (f' site t).1 = .ok { text := site.placeholderLine } ∧
    (f' site t).2.offsets = t.offsets
  agrees : ∀ site t, ¬ F site → f' site t = f site t

section Placeholder

variable {l : Text.Layout} {d : Draft} {site : BodySite}

theorem newlines_placeholderLine (hl : site.layout.LineFed) :
    Text.newlines site.placeholderLine = 1 := by
  have hindent : Text.newlines (site.layout.indentText site.level) = 0 :=
    Text.newlines_eq_zero_iff.mpr (Text.within_indentText hl.indent site.level)
  have hfixed : Text.newlines placeholder = 0 := by decide
  rw [BodySite.placeholderLine, Text.newlines_append, Text.newlines_append, hindent, hfixed,
    hl.separator]
  decide

theorem isBlankText_placeholderLine : Text.isBlankText site.placeholderLine = false := by
  have hslash : '/' ∈ site.placeholderLine.toList := by
    simp only [BodySite.placeholderLine, String.toList_append, List.mem_append]
    exact .inl (.inr (by decide))
  rw [Text.isBlankText, List.all_eq_false]
  exact ⟨'/', hslash, by decide⟩

/-- As a body the placeholder leaves the draft in which it is written as a line. -/
theorem filled_placeholderLine (hl : site.layout.LineFed) (hd : d.buffer.layout = site.layout) :
    MethodSketch.filled site.placeholderLine d = d.writeLine site.level placeholder := by
  have hends : Text.endsWith d.buffer.layout.separator site.placeholderLine = true := by
    rw [hd, BodySite.placeholderLine, Text.endsWith, List.isSuffixOf_iff_suffix,
      String.toList_append]
    exact List.suffix_append _ _
  have hcount : Text.countLines d.buffer.layout.separator site.placeholderLine = 1 := by
    rw [hd, hl.separator, Text.countLines_lineFeed, newlines_placeholderLine hl]
  rw [MethodSketch.filled, isBlankText_placeholderLine, if_neg Bool.false_ne_true,
    MethodSketch.writeBody, if_pos hends, Draft.appendText, hcount, Draft.writeLine]
  simp only [BodySite.placeholderLine, Text.Buffer.append, Text.Buffer.appendLine,
    Text.Buffer.appendIndent, Text.Buffer.endLine, hd, String.append_assoc]

/-- A line at the front of a text. -/
theorem splitLines_append {cs : List Char} (h : ∀ c ∈ cs, c ≠ '\n') (line rest : List Char) :
    Text.splitLines line (cs ++ '\n' :: rest) =
      Text.closeLine (cs.reverse ++ line) :: Text.splitLines [] rest := by
  induction cs generalizing line with
  | nil => simp [Text.splitLines]
  | cons c cs ih =>
    have hc : (c == '\n') = false := by simpa using h c List.mem_cons_self
    have hrest := ih (fun c hc => h c (List.mem_cons_of_mem _ hc)) (c :: line)
    simp only [List.cons_append, Text.splitLines, hc, Bool.false_eq_true, if_false, hrest,
      List.reverse_cons, List.append_assoc, List.nil_append]

theorem trimChars_append {blank cs : List Char} (h : ∀ c ∈ blank, Text.isBlank c = true) :
    Text.trimChars (blank ++ cs) = Text.trimChars cs := by
  rw [Text.trimChars, Text.trimChars, List.dropWhile_append_of_pos h]

/-- After blanks alone a placeholder is one line, which says nothing else. -/
theorem lines_placeholderLine (site : BodySite) (hl : site.layout.LineFed)
    (hblank : Text.isBlankText site.layout.indent = true) :
    (Text.lines site.placeholderLine).map Text.trim = [placeholder] := by
  have hindent : OneLine (site.layout.indentText site.level) :=
    Text.within_indentText hl.indent site.level
  have hspaces : Text.Within (Text.isBlank · = true) (site.layout.indentText site.level) :=
    Text.within_indentText (List.all_eq_true.mp hblank) site.level
  have hone : ∀ c ∈ (site.layout.indentText site.level).toList ++ placeholder.toList, c ≠ '\n' := by
    intro c hc
    rcases List.mem_append.mp hc with hc | hc
    · exact hindent c hc
    · exact (by decide : OneLine placeholder) c hc
  have hclose : ∀ cs : List Char, Text.closeLine (placeholder.toList.reverse ++ cs) =
      cs.reverse ++ placeholder.toList := by
    intro cs
    obtain ⟨xs, hd⟩ : ∃ xs, placeholder.toList.reverse = 'd' :: xs := ⟨_, rfl⟩
    have hlast : Text.closeLine ('d' :: xs ++ cs) = ('d' :: xs ++ cs).reverse := rfl
    rw [hd, hlast, ← hd, List.reverse_append, List.reverse_reverse]
  have htext : site.placeholderLine.toList =
      ((site.layout.indentText site.level).toList ++ placeholder.toList) ++ '\n' :: [] := by
    rw [BodySite.placeholderLine, String.toList_append, String.toList_append, hl.separator]
    rfl
  rw [Text.lines, htext, splitLines_append hone, List.append_nil, List.reverse_append, hclose,
    List.reverse_reverse]
  simp only [Text.splitLines, List.isEmpty_nil, if_true, List.map_cons, List.map_nil, Text.trim,
    String.toList_ofList, trimChars_append hspaces]
  decide

end Placeholder

/-- A trace without offsets files an empty table. -/
theorem LineMap.add_of_no_offsets (m : LineMap) (name key : String) {t t' : Trace}
    (h : t.offsets = []) (h' : t'.offsets = []) : m.add name key t = m.add name key t' := by
  simp only [LineMap.add, Trace.sourceLines, h, h', List.foldl_nil]

theorem MethodSketch.closed_of_no_offsets {σ : Type} {k : Kit σ} {site : BodySite}
    (hexit : k.renderer.exitOffset site = none) {t t' : Trace} (h : t.offsets = [])
    (h' : t'.offsets = []) (level : Nat) (d : Draft) :
    closed k site t level d = closed k site t' level d := by
  have hadd : d.lineMap.add site.decl.name site.method.key (t.moveTo d.line) =
      d.lineMap.add site.decl.name site.method.key (t'.moveTo d.line) :=
    d.lineMap.add_of_no_offsets _ _ h h'
  simp only [closed, hexit, hadd]

/-- The bench with other notes about failures. -/
def Bench.withNotes {σ : Type} (b : Bench σ) (warnings : List Warning) (failed : List Nat) :
    Bench σ :=
  ⟨{ b.shop with warnings }, { b.draft with failed }⟩

/-- Two runs that differ in what they noted about failures. What the first one noted of nodes comes
from the visits: a node is noted if a body of it fails in any case, and only if one may fail. -/
structure Twins {σ : Type} (k : Kit σ) (f : PureBody) (done : List Visit) (b b' : Bench σ) :
    Prop where
  alike : ∃ warnings failed, b' = b.withNotes warnings failed
  layout : b.draft.buffer.layout = k.options.layout
  noted : ∀ v ∈ done, v.hasBody k = true →
    (∀ t, isFailure (f (v.site k.options) t).1 = true) → v.node.id ∈ b.draft.failed
  only : ∀ id ∈ b.draft.failed, ∃ v ∈ done, v.hasBody k = true ∧ v.node.id = id ∧
    ∃ t, isFailure (f (v.site k.options) t).1 = true

namespace Twins

variable {σ : Type} {k : Kit σ} {f : PureBody} {done : List Visit} {b b' : Bench σ}

/-- What changes neither the layout nor the failures, in the same way in both runs. -/
theorem update (h : Twins k f done b b') (e : Bench σ → Bench σ)
    (he : ∀ warnings failed, e (b.withNotes warnings failed) = (e b).withNotes warnings failed)
    (hlayout : (e b).draft.buffer.layout = b.draft.buffer.layout)
    (hfailed : (e b).draft.failed = b.draft.failed) : Twins k f done (e b) (e b') := by
  obtain ⟨⟨warnings, failed, rfl⟩, hl, hnoted, honly⟩ := h
  refine ⟨⟨warnings, failed, he warnings failed⟩, hlayout.trans hl, ?_, ?_⟩
  · rw [hfailed]
    exact hnoted
  · rw [hfailed]
    exact honly

/-- What becomes of a draft does not depend on the failures. -/
theorem finish_eq (h : Twins k f done b b') (o : Options) (c : ClassDecl) :
    b'.draft.finish o c = b.draft.finish o c := by
  obtain ⟨_, _, rfl⟩ := h.alike
  rfl

theorem steps (k : Kit σ) (f : PureBody) (done : List Visit) :
    Steps .any Eq (fun _ => True) (Twins k f done) where
  draw s hL _ hb := by
    subst hL
    exact hb.update (·.draw _ s) (fun _ _ => rfl) rfl rfl
  spelling name b b' hb := by
    obtain ⟨warnings, failed, rfl⟩ := hb.alike
    exact ⟨rfl, hb.update (fun b => (SketchM.shortName name b).2) (fun _ _ => rfl) rfl rfl⟩
  signature c _ _ b b' hb := by
    obtain ⟨warnings, failed, rfl⟩ := hb.alike
    exact ⟨⟨rfl, fun s _ => s.worded_any⟩,
      hb.update (fun b => (SketchM.inGenealogy (Genealogy.signature? c) b).2) (fun _ _ => rfl) rfl rfl⟩
  overriding c m ps b b' hb := by
    obtain ⟨warnings, failed, hb'⟩ := hb.alike
    have hgenealogy : b'.shop.genealogy = b.shop.genealogy := congrArg (·.shop.genealogy) hb'
    have hafter := hb.update (fun b => { b with shop :=
      { b.shop with genealogy := (Genealogy.ancestry c.name b.shop.genealogy).2 } })
      (fun _ _ => rfl) rfl rfl
    rw [Override.check_apply, Override.check_apply]
    split
    · exact ⟨rfl, hb⟩
    · rw [hgenealogy] at hafter ⊢
      exact ⟨rfl, hafter⟩

/-- One more visit. Its node is noted if its body may fail and only if it does so in any case. -/
theorem visit (h : Twins k f done b b') {v : Visit} {c c' : Bench σ}
    (halike : ∃ warnings failed, c' = c.withNotes warnings failed)
    (hlayout : c.draft.buffer.layout = b.draft.buffer.layout)
    (hfailed : (c.draft.failed = v.node.id :: b.draft.failed ∧ v.hasBody k = true ∧
        ∃ t, isFailure (f (v.site k.options) t).1 = true) ∨
      (c.draft.failed = b.draft.failed ∧
        (v.hasBody k = true → ∃ t, isFailure (f (v.site k.options) t).1 = false))) :
    Twins k f (done ++ [v]) c c' := by
  refine ⟨halike, hlayout.trans h.layout, ?_, ?_⟩
  · intro u hu hbody hall
    rcases List.mem_append.mp hu with hu | hu
    · have hmem := h.noted u hu hbody hall
      rcases hfailed with ⟨he, _⟩ | ⟨he, _⟩
      · exact he ▸ List.mem_cons_of_mem _ hmem
      · exact he ▸ hmem
    · obtain rfl := List.mem_singleton.mp hu
      rcases hfailed with ⟨he, _⟩ | ⟨_, hsome⟩
      · exact he ▸ List.mem_cons_self
      · obtain ⟨t, ht⟩ := hsome hbody
        rw [hall t] at ht
        cases ht
  · intro id hid
    have hold : id ∈ b.draft.failed → ∃ u ∈ done ++ [v], u.hasBody k = true ∧ u.node.id = id ∧
        ∃ t, isFailure (f (u.site k.options) t).1 = true := by
      intro hid
      obtain ⟨u, hu, hrest⟩ := h.only id hid
      exact ⟨u, List.mem_append_left _ hu, hrest⟩
    rcases hfailed with ⟨he, hbody, ht⟩ | ⟨he, _⟩
    · rcases List.mem_cons.mp (he ▸ hid) with rfl | hid
      · exact ⟨v, by simp, hbody, rfl, ht⟩
      · exact hold hid
    · exact hold (he ▸ hid)

end Twins

namespace MethodSketch

variable {σ : Type} {k : Kit σ} {v : Visit}

theorem rendering_of_isFailure (line : Nat) {a : Except BodyFailure Body × Trace}
    (h : isFailure a.1 = true) : rendering line a = ⟨none, { line }⟩ := by
  rcases a with ⟨_ | body, t⟩
  · rfl
  · exact if_pos h

theorem text_rendering_eq_none_iff (line : Nat) (a : Except BodyFailure Body × Trace) :
    (rendering line a).text = none ↔ isFailure a.1 = true := by
  rcases a with ⟨_ | body, t⟩
  · simp [rendering, isFailure]
  · by_cases hf : body.flagged = true <;> simp [rendering, isFailure, hf]

theorem fate_eq_failed_iff {text : Option String} : fate k v text = .failed ↔ text = none := by
  cases text with
  | none => simp [fate]
  | some text =>
    simp only [fate, reduceCtorEq, iff_false]
    split
    · simp
    · split <;> simp

theorem settle_withFailed (r : Rendered) (d : Draft) (failed : List Nat) :
    settle k v r { d with failed } = { settle k v r d with failed } := by
  have hfilled : ∀ text, filled text { d with failed } = { filled text d with failed } := by
    intro text
    simp only [filled, writeBody]
    split
    · rfl
    · split <;> rfl
  simp only [settle, hfilled]
  split
  · rfl
  · split <;> rfl

theorem settle_keeps (r : Rendered) (d : Draft) :
    (settle k v r d).buffer.layout = d.buffer.layout ∧ (settle k v r d).failed = d.failed := by
  have hfilled : ∀ text, (filled text d).buffer.layout = d.buffer.layout ∧
      (filled text d).failed = d.failed := by
    intro text
    simp only [filled, writeBody]
    split
    · exact ⟨rfl, rfl⟩
    · split <;> exact ⟨rfl, rfl⟩
  simp only [settle]
  split
  · exact ⟨rfl, rfl⟩
  · split
    · exact hfilled _
    · exact hfilled _

end MethodSketch

namespace Twins

variable {σ : Type} {k : Kit σ} {f f' : PureBody} {F : BodySite → Prop} {done : List Visit}
  {v : Visit} {b b' : Bench σ}

/-- The placeholder of the method does not read like a line that the compiler adds. -/
def Plain (k : Kit σ) (F : BodySite → Prop) (v : Visit) : Prop :=
  F (v.site k.options) → v.node.decl.isRecord = true →
    MethodSketch.isGeneratedMember v.node.decl v.method (v.site k.options).placeholderLine = false

theorem plain_of_blank (hl : k.options.layout.LineFed)
    (hblank : Text.isBlankText k.options.layout.indent = true) (F : BodySite → Prop) (v : Visit) :
    Plain k F v := by
  intro _ _
  have hlines := lines_placeholderLine (v.site k.options) hl hblank
  have hkept : ([placeholder].filter fun l => !l.isEmpty) = [placeholder] := by decide
  have hreturn : ∀ s : String, ("return this." ++ s).toList =
      'r' :: ("eturn this.".toList ++ s.toList) := fun s => String.toList_append
  have hfirst : placeholder.toList = '/' :: "/ could not be decompiled".toList := rfl
  have hstarts : ∀ s, Text.startsWith ("return this." ++ s) placeholder = false := by
    intro s
    rw [Text.startsWith, hreturn, hfirst]
    rfl
  have hequal : ∀ s, (placeholder == "return this." ++ s) = false := by
    intro s
    rw [beq_eq_false_iff_ne]
    intro he
    have hchars := congrArg String.toList he
    rw [hreturn, hfirst] at hchars
    exact absurd (List.cons.inj hchars).1 (by decide)
  rw [MethodSketch.isGeneratedMember, hlines, hkept]
  simp only [String.append_assoc, hstarts, hequal, Bool.and_false]
  split
  · rfl
  · split <;> rfl

/-- What the first run makes of a body is what the second one makes of it, except that the second
one does not see the failures in `F`. -/
theorem settle_standsIn (hf : StandsIn F f f') (hl : k.options.layout.LineFed)
    (hexit : ∀ site, k.renderer.exitOffset site = none) (hv : Plain k F v) (t : Trace) (line : Nat)
    (ht : t.offsets = []) {d : Draft} (hd : d.buffer.layout = k.options.layout) :
    let r := MethodSketch.rendering line (f (v.site k.options) t)
    let r' := MethodSketch.rendering line (f' (v.site k.options) t)
    (MethodSketch.fate k v r.text = .hidden ↔ MethodSketch.fate k v r'.text = .hidden) ∧
      MethodSketch.settle k v r d = MethodSketch.settle k v r' d := by
  by_cases hF : F (v.site k.options)
  · obtain ⟨hok, hoffsets⟩ := hf.placed _ t hF
    have hr := MethodSketch.rendering_of_isFailure line (hf.fails _ t hF)
    have hr' : MethodSketch.rendering line (f' (v.site k.options) t) =
        ⟨some (v.site k.options).placeholderLine, (f' (v.site k.options) t).2⟩ := by
      rw [MethodSketch.rendering, hok]
      rfl
    have hgenerated : (v.node.decl.isRecord && MethodSketch.isGeneratedMember v.node.decl v.method
        (v.site k.options).placeholderLine) = false := by
      rw [Bool.and_eq_false_imp]
      exact hv hF
    have hfate : MethodSketch.fate k v (some (v.site k.options).placeholderLine) = .written := by
      simp [MethodSketch.fate, isBlankText_placeholderLine, hgenerated]
    have hsite : (v.site k.options).layout.LineFed := hl
    have hfailed : MethodSketch.fate k v none = .failed := rfl
    rw [hr, hr']
    refine ⟨by simp only [hfate, hfailed, reduceCtorEq], ?_⟩
    simp only [MethodSketch.settle, hfate, reduceCtorEq, if_false,
      filled_placeholderLine hsite hd]
    exact MethodSketch.closed_of_no_offsets (hexit _) rfl (hoffsets.trans ht) _ _
  · rw [hf.agrees _ t hF]
    exact ⟨Iff.rfl, rfl⟩

/-- Notes are neither read nor lost on the way through a body. -/
theorem openBody_pure (hk : k.renderer.body = f.run) (head : String)
    (hs : b.draft.scope.className = some v.node.name) (warnings : List Warning)
    (failed : List Nat) :
    let d := b.draft.writeLine v.level (head ++ " \x7b")
    let r := MethodSketch.rendering d.line
      (f (v.site k.options) ⟨d.line, [], v.method.lineTable⟩)
    ∃ more, MethodSketch.openBody k v head (b.withNotes warnings failed) =
      (MethodSketch.fate k v r.text,
        (⟨b.shop, MethodSketch.settle k v r d⟩ : Bench σ).withNotes more failed) := by
  intro d r
  have hanswer : k.renderer.body (v.site k.options) ⟨d.line, [], v.method.lineTable⟩ b.shop.memory =
      (f (v.site k.options) ⟨d.line, [], v.method.lineTable⟩, b.shop.memory) := by
    rw [hk]
    rfl
  have hr : MethodSketch.rendered k v d.line b.shop.memory = r := by
    rw [MethodSketch.rendered, hanswer]
  have hsettle := MethodSketch.settle_withFailed (k := k) (v := v) r d failed
  have happly := MethodSketch.openBody_apply k v head (b := b.withNotes warnings failed) hs
  refine ⟨warnings ++ MethodSketch.reports ⟨v.node.decl.name, v.method.name, v.method.descriptor⟩
    (f (v.site k.options) ⟨d.line, [], v.method.lineTable⟩).1, happly.trans ?_⟩
  change (MethodSketch.fate k v (MethodSketch.rendered k v d.line b.shop.memory).text,
    Bench.mk (MethodSketch.answered v (k.renderer.body (v.site k.options)
      ⟨d.line, [], v.method.lineTable⟩ b.shop.memory) { b.shop with warnings })
      (MethodSketch.settle k v (MethodSketch.rendered k v d.line b.shop.memory)
        { d with failed })) = _
  rw [hr, hsettle, hanswer]
  rfl

theorem body (hk : k.renderer.body = f.run) (hf : StandsIn F f f')
    (hl : k.options.layout.LineFed) (hexit : ∀ site, k.renderer.exitOffset site = none)
    (hv : Plain k F v) (hbody : v.hasBody k = true) (head : String) {before before' : Bench σ}
    (hbefore : Twins k f done before before') (hb : Twins k f done b b')
    (hs : b.draft.scope.className = some v.node.name) :
    Settles (Twins k f (done ++ [v])) v.node before before' (MethodSketch.openBody k v head b)
      (MethodSketch.openBody (k.withBody f'.run) v head b') := by
  obtain ⟨warnings, failed, rfl⟩ := hb.alike
  obtain ⟨_, _, rfl⟩ := hbefore.alike
  obtain ⟨more, hrun⟩ := openBody_pure hk head hs b.shop.warnings b.draft.failed
  obtain ⟨more', hrun'⟩ := openBody_pure (k := k.withBody f'.run) rfl head hs warnings failed
  have hopened : (b.draft.writeLine v.level (head ++ " \x7b")).buffer.layout = k.options.layout :=
    hb.layout
  generalize b.draft.writeLine v.level (head ++ " \x7b") = d at hrun hrun' hopened
  obtain ⟨hhidden, hsettle⟩ := settle_standsIn hf hl hexit hv ⟨d.line, [], v.method.lineTable⟩ d.line
    rfl hopened
  have hnone := MethodSketch.text_rendering_eq_none_iff d.line
    (f (v.site k.options) ⟨d.line, [], v.method.lineTable⟩)
  generalize ht : (⟨d.line, [], v.method.lineTable⟩ : Trace) = t at hrun hrun' hhidden hsettle hnone
  generalize MethodSketch.rendering d.line (f (v.site k.options) t) = r
    at hrun hhidden hsettle hnone
  generalize hr' : MethodSketch.rendering d.line (f' (v.site k.options) t) = r'
    at hhidden hsettle
  have hfirst : MethodSketch.openBody k v head b = (MethodSketch.fate k v r.text,
      (⟨b.shop, MethodSketch.settle k v r' d⟩ : Bench σ).withNotes more b.draft.failed) :=
    hsettle ▸ hrun
  have hsecond : MethodSketch.openBody (k.withBody f'.run) v head (b.withNotes warnings failed) =
      (MethodSketch.fate k v r'.text,
        (⟨b.shop, MethodSketch.settle k v r' d⟩ : Bench σ).withNotes more' failed) :=
    hr' ▸ hrun'
  have hlayout : (MethodSketch.settle k v r' d).buffer.layout = b.draft.buffer.layout :=
    (MethodSketch.settle_keeps r' d).1.trans (hopened.trans hb.layout.symm)
  rw [hfirst, hsecond]
  have hokay : MethodSketch.fate k v r.text ≠ .failed →
      isFailure (f (v.site k.options) t).1 = false := by
    intro hne
    rw [← Bool.not_eq_true]
    exact fun hfail => hne (MethodSketch.fate_eq_failed_iff.mpr (hnone.mpr hfail))
  refine ⟨hhidden, fun he => ?_, fun hne => ?_⟩
  · dsimp only at he
    have hsome := hokay (he ▸ nofun)
    exact hb.visit ⟨more', failed, rfl⟩ (hbefore.layout.trans hb.layout.symm)
      (.inr ⟨rfl, fun _ => ⟨t, hsome⟩⟩)
  · dsimp only at hne
    cases ho : MethodSketch.fate k v r.text with
    | hidden => exact absurd ho hne
    | failed =>
      have hfail := hnone.mp (MethodSketch.fate_eq_failed_iff.mp ho)
      refine hb.visit ?_ hlayout (.inl ⟨rfl, hbody, t, hfail⟩)
      cases MethodSketch.fate k v r'.text <;> exact ⟨_, _, rfl⟩
    | written =>
      have hsome := hokay (ho ▸ nofun)
      refine hb.visit ?_ hlayout (.inr ⟨rfl, fun _ => ⟨t, hsome⟩⟩)
      cases MethodSketch.fate k v r'.text <;> exact ⟨_, _, rfl⟩

theorem follows (hk : k.renderer.body = f.run) (hf : StandsIn F f f')
    (hl : k.options.layout.LineFed) (hexit : ∀ site, k.renderer.exitOffset site = none) :
    Follows .any Eq (fun _ => True) k f'.run (Plain k F) (Twins k f) where
  steps := steps k f
  scope_eq hb := by
    obtain ⟨_, _, rfl⟩ := hb.alike
    rfl
  scope_free s hb := hb.update (Scoped.withScope · s) (fun _ _ => rfl) rfl rfl
  bodiless _ hbody hb := hb.visit hb.alike rfl (.inr ⟨rfl, fun h => by simp [hbody] at h⟩)
  body hv hbody hL _ hbefore hb _ _ hs := by
    subst hL
    exact body hk hf hl hexit hv hbody _ hbefore hb hs

end Twins

namespace Workshop

variable {σ : Type} {k : Kit σ} {F : BodySite → Prop} {f f' : PureBody}

theorem twins_fileDraft (hl : k.options.layout.LineFed)
    (hexit : ∀ site, k.renderer.exitOffset site = none) (hf : StandsIn F f f') (t : ClassTree)
    (hplain : ∀ v ∈ (k.withBody f.run).fileVisits t, Twins.Plain k F v) (shop : Workshop σ) :
    Twins (k.withBody f.run) f ((k.withBody f.run).fileVisits t)
      ⟨(shop.fileDraft (k.withBody f.run) t).2, (shop.fileDraft (k.withBody f.run) t).1⟩
      ⟨(shop.fileDraft (k.withBody f'.run) t).2, (shop.fileDraft (k.withBody f'.run) t).1⟩ := by
  have hstart : ∀ shop : Workshop σ, Twins (k.withBody f.run) f []
      ⟨shop, .ofRoot t.root.name k.options.layout⟩ ⟨shop, .ofRoot t.root.name k.options.layout⟩ :=
    fun shop => ⟨⟨_, _, rfl⟩, rfl, by simp, by simp [Draft.ofRoot]⟩
  have hsprouted : t.sprouted (k.withBody f'.run).renderer = t.sprouted (k.withBody f.run).renderer :=
    rfl
  rw [Kit.fileVisits] at hplain ⊢
  rw [fileDraft, fileDraft, hsprouted]
  generalize t.sprouted (k.withBody f.run).renderer = s at hplain ⊢
  by_cases hinfo : t.root.decl.isPackageInfo = true
  · simp only [hinfo, if_true]
    have htexts : Wording.any.Holds t.root.decl.texts := fun _ _ _ _ => trivial
    exact (Twins.steps (k.withBody f.run) f []).writePackage rfl htexts
      (hstart (shop.prepare s.preparedClasses))
  · simp only [hinfo, Bool.false_eq_true, if_false, draftClass_apply] at hplain ⊢
    have hrun := (Twins.follows (k := k.withBody f.run) rfl hf hl hexit).sketch
      (k.withBody f.run).worded_any (fun _ _ hL => congrArg (· + 1) hL)
      (fun _ _ => trivial) (fun _ _ _ _ _ _ => trivial) (.inl fun _ => rfl) rfl hplain
    exact hrun [] _ _ (hstart (shop.prepare s.preparedClasses))

/-- A failure costs the file the body and nothing else. -/
theorem failures_isolated (hl : k.options.layout.LineFed)
    (hexit : ∀ site, k.renderer.exitOffset site = none) (hf : StandsIn F f f') (t : ClassTree)
    (hplain : ∀ v ∈ (k.withBody f.run).fileVisits t, Twins.Plain k F v) (shop : Workshop σ) :
    (shop.writeFile (k.withBody f'.run) t).1.text = (shop.writeFile (k.withBody f.run) t).1.text ∧
      (shop.writeFile (k.withBody f'.run) t).1.tables =
        (shop.writeFile (k.withBody f.run) t).1.tables ∧
      ((∀ site s s', isFailure (f site s).1 = isFailure (f site s').1) →
        ((shop.writeFile (k.withBody f.run) t).1.failed = true ↔
          ∃ v ∈ (k.withBody f.run).fileVisits t, (v.method.isStaticInit = true ∨
              v.method.access.hasSome (AccessFlags.abstractFlag.union .nativeFlag) = false) ∧
            ∃ s, isFailure (f (v.site k.options) s).1 = true)) := by
  have htwins := twins_fileDraft hl hexit hf t hplain shop
  have hfinish := htwins.finish_eq k.options t.root.decl
  have hnoted := htwins.noted
  have honly := htwins.only
  dsimp only at hfinish hnoted honly
  simp only [text_writeFile, tables_writeFile, failed_writeFile]
  generalize shop.fileDraft (k.withBody f.run) t = out at hfinish hnoted honly ⊢
  generalize shop.fileDraft (k.withBody f'.run) t = out' at hfinish ⊢
  refine ⟨congrArg Prod.fst hfinish, congrArg (fun r => r.2.tables) hfinish, fun hstable => ?_⟩
  constructor
  · rintro ⟨n, _, hid⟩
    obtain ⟨v, hv, hbody, _, ht⟩ := honly n.id hid
    exact ⟨v, hv, (v.hasBody_iff _).mp hbody, ht⟩
  · rintro ⟨v, hv, hbody, s, hs⟩
    have hall : ∀ s', isFailure (f (v.site k.options) s').1 = true :=
      fun s' => (hstable _ s' s).trans hs
    have hnode : v.node ∈ (t.sprouted (k.withBody f.run).renderer).nodes := by
      rw [Kit.fileVisits] at hv
      split at hv
      · cases hv
      · exact TypeSketch.node_mem_of_mem_visits hv
    exact ⟨v.node, hnode, hnoted v hv ((v.hasBody_iff _).mpr hbody) hall⟩

section Records

/-- Every body fails, after an offset was marked. -/
def broken : PureBody := fun site t => (.error (.failed site.method.name "broken"), t.mark 0)

def standIn : PureBody := fun site t => (.ok { text := site.placeholderLine }, t)

theorem standIn_standsIn : StandsIn (fun _ => True) broken standIn :=
  ⟨fun _ _ _ => rfl, fun _ _ _ => ⟨rfl, rfl⟩, fun _ _ h => absurd trivial h⟩

def emptyKit (indent : String) : Kit Unit where
  options := { layout := { indent } }
  renderer := { body := broken.run }

def printed : ClassDecl where
  name := "P"
  access := ⟨17⟩
  superclass := some "java/lang/Record"
  recordParts := some []
  methods := [{ name := "toString", descriptor := "()Ljava/lang/String;", access := ⟨1⟩ }]

def printedFile (f : PureBody) (indent : String) : SourceFile :=
  ((⟨{ library := .ofList [printed] }, (), [], []⟩ : Workshop Unit).writeFile
    ((emptyKit indent).withBody f.run) (.single printed)).1

theorem failures_isolated_printed :
    (printedFile standIn "   ").text = (printedFile broken "   ").text ∧
      (printedFile standIn "   ").tables = (printedFile broken "   ").tables ∧
      (printedFile broken "   ").failed = true ∧
      ∃ v ∈ ((emptyKit "   ").withBody broken.run).fileVisits (.single printed),
        (v.method.isStaticInit = true ∨
          v.method.access.hasSome (AccessFlags.abstractFlag.union .nativeFlag) = false) ∧
        ∃ s, isFailure (broken (v.site (emptyKit "   ").options) s).1 = true := by
  have hl : (emptyKit "   ").options.layout.LineFed := ⟨rfl, by decide⟩
  have hblank : Text.isBlankText (emptyKit "   ").options.layout.indent = true := by decide
  have hmarked : (printedFile broken "   ").failed = true := by decide +kernel
  obtain ⟨htext, htables, hfailed⟩ := failures_isolated hl (fun _ => rfl) standIn_standsIn
    (.single printed) (fun v _ => Twins.plain_of_blank hl hblank _ v)
    ⟨{ library := .ofList [printed] }, (), [], []⟩
  have hstable : ∀ site s s', isFailure (broken site s).1 = isFailure (broken site s').1 :=
    fun _ _ _ => rfl
  unfold printedFile at hmarked ⊢
  exact ⟨htext, htables, hmarked, (hfailed hstable).mp hmarked⟩

/-- With an odd indent the placeholder of a record's `toString` reads like the compiler's own line,
which is left out of the file. -/
theorem placeholder_left_out :
    (emptyKit "return this.toString<invokedynamic>(this").options.layout.LineFed ∧
      (∀ indent site, (emptyKit indent).renderer.exitOffset site = none) ∧
      StandsIn (fun _ => True) broken standIn ∧
      (printedFile broken "return this.toString<invokedynamic>(this").text ≠
        (printedFile standIn "return this.toString<invokedynamic>(this").text :=
  ⟨⟨rfl, by decide⟩, fun _ _ => rfl, standIn_standsIn, by decide +kernel⟩

end Records

end Workshop

end ClassSketch
