import ClassSketch.Proofs.Bodies
import ClassSketch.Render.Prepared
import ClassSketch.Sketch.Lambda

/-! The line counter of a draft against its text. With line feeds as separators the counter is never
ahead of the text. It is in step with the text if everything but the bodies is free of line feeds;
an initializer of two lines leaves it behind. -/

namespace ClassSketch

open Text (Within)

namespace Text

/-- Line feeds in a text. -/
def newlines (s : String) : Nat := s.toList.count '\n'

@[simp] theorem newlines_append (s t : String) : newlines (s ++ t) = newlines s + newlines t := by
  rw [newlines, String.toList_append, List.count_append]
  rfl

theorem newlines_eq_zero_iff {s : String} : newlines s = 0 ↔ OneLine s := by
  rw [newlines, List.count_eq_zero]
  exact ⟨fun h c hc he => h (he ▸ hc), fun h hc => h '\n' hc rfl⟩

theorem countLines_lineFeed (s : String) : countLines "\n" s = newlines s := by
  have hchars : ∀ cs : List Char, occurrences ['\n'] 0 cs = cs.count '\n' := by
    intro cs
    induction cs with
    | nil => rfl
    | cons c cs ih =>
      by_cases hc : c = '\n'
      · simp [occurrences, hc, ih]
      · simp [occurrences, hc, ih, Ne.symm hc]
  exact hchars s.toList

end Text

open Text (newlines)

/-- A layout with line feeds as separators. -/
structure Text.Layout.LineFed (l : Text.Layout) : Prop where
  separator : l.separator = "\n"
  indent : OneLine l.indent

theorem Stroke.newlines_render {l : Text.Layout} (hl : l.LineFed) (level : Nat) (s : Stroke) :
    newlines (s.render l level) = newlines s.text + s.lines := by
  have hindent : newlines (l.indentText level) = 0 :=
    Text.newlines_eq_zero_iff.mpr (Text.within_indentText hl.indent level)
  have hstart : newlines (if s.starts then l.indentText level else "") = 0 := by
    split
    · exact hindent
    · rfl
  have hbrace : newlines (s.brace.elim "" Brace.text) = 0 := by
    rcases s.brace with _ | _ | _ <;> rfl
  have hend : newlines (if s.ends then l.separator else "") = s.lines := by
    rw [Stroke.lines, hl.separator]
    split <;> rfl
  rw [Stroke.render, Text.newlines_append, Text.newlines_append, Text.newlines_append, hstart, hbrace,
    hend]
  omega

/-- The counter is not ahead of the text, and in step with it if `p` holds. -/
structure Draft.Counted (l : Text.Layout) (p : Prop) (d : Draft) : Prop where
  layout : d.buffer.layout = l
  le : d.line ≤ newlines d.buffer.text
  eq : p → d.line = newlines d.buffer.text

namespace Draft.Counted

variable {l : Text.Layout} {p : Prop} {d : Draft}

theorem draw (hl : l.LineFed) (h : d.Counted l p) (level : Nat) {s : Stroke}
    (hs : p → OneLine s.text) : (d.draw level s).Counted l p := by
  have htext : newlines (d.draw level s).buffer.text =
      newlines d.buffer.text + (newlines s.text + s.lines) := by
    rw [← s.newlines_render hl level, ← h.layout, ← Text.newlines_append]
    rfl
  have hline : (d.draw level s).line = d.line + s.lines := rfl
  refine ⟨h.layout, ?_, fun hp => ?_⟩
  · have := h.le
    omega
  · have hone : newlines s.text = 0 := Text.newlines_eq_zero_iff.mpr (hs hp)
    have := h.eq hp
    omega

theorem writeOpening (hl : l.LineFed) (h : d.Counted l p) (level : Nat) {head : String}
    (hhead : p → OneLine head) : (d.writeLine level (head ++ " \x7b")).Counted l p := by
  rw [Draft.writeLine_open_eq_draw]
  exact h.draw hl level hhead

/-- Separators inside of bodies are counted. -/
theorem appendText (hl : l.LineFed) (h : d.Counted l p) (s : String) :
    (d.appendText s).Counted l p := by
  have htext : newlines (d.appendText s).buffer.text = newlines d.buffer.text + newlines s :=
    Text.newlines_append _ _
  have hline : (d.appendText s).line = d.line + newlines s := by
    rw [Draft.appendText, h.layout, hl.separator, Text.countLines_lineFeed]
  refine ⟨h.layout, ?_, fun hp => ?_⟩
  · have := h.le
    omega
  · have := h.eq hp
    omega

theorem page {d' : Draft} (h : d.Counted l p) (hb : d'.buffer = d.buffer) (hl : d'.line = d.line) :
    d'.Counted l p := by
  refine ⟨hb ▸ h.layout, ?_, ?_⟩
  · rw [hb, hl]
    exact h.le
  · rw [hb, hl]
    exact h.eq

theorem filled (hl : l.LineFed) (h : d.Counted l p) (text : String) :
    (MethodSketch.filled text d).Counted l p := by
  rw [MethodSketch.filled]
  split
  · exact h
  · rw [MethodSketch.writeBody]
    split
    · exact h.appendText hl text
    · rw [Draft.endLine_eq_draw 0]
      exact (h.appendText hl text).draw hl 0 fun _ => by decide

theorem closed {σ : Type} (hl : l.LineFed) (h : d.Counted l p) (k : Kit σ) (site : BodySite)
    (trace : Trace) (level : Nat) : (MethodSketch.closed k site trace level d).Counted l p := by
  have hbrace := h.draw hl level (s := { brace := some .closing }) fun _ => by decide
  rw [← Draft.writeLine_close_eq_draw] at hbrace
  exact hbrace.page rfl rfl

theorem settle {σ : Type} (hl : l.LineFed) (h : d.Counted l p) (k : Kit σ) (v : Visit)
    (r : MethodSketch.Rendered) : (MethodSketch.settle k v r d).Counted l p := by
  rw [MethodSketch.settle]
  split
  · have hline := h.draw hl (v.level + 1) (s := .line placeholder) fun _ => by decide
    rw [← Draft.writeLine_eq_draw] at hline
    exact hline.closed hl k _ _ _
  · split
    · exact h.filled hl _
    · exact (h.filled hl _).closed hl k _ _ _

theorem carries {σ : Type} {w : Wording} {k : Kit σ} (hl : k.options.layout.LineFed)
    (hw : p → ∀ s, w.good s → OneLine s) :
    Carries w k (fun _ => True) fun _ d => d.Counted k.options.layout p where
  page h hb hline _ := h.page hb hline
  draw _ hs h := h.draw hl _ fun hp => hw hp _ hs
  bodiless _ _ h := h
  hidden _ _ _ h := h
  shown _ _ _ hhead h _ :=
    (h.writeOpening hl _ fun hp => hw hp _ (w.good_of_within _ hhead.within)).settle hl k _ _

end Draft.Counted

/-- Whatever is written into single lines is free of line feeds: the texts of the classes that are
written, of those that signatures are looked up in, and what the renderer gives besides bodies. -/
structure SingleLined {σ : Type} (k : Kit σ) (t : Tree ClassNode) (g : Genealogy) : Prop where
  nodes : ∀ n ∈ t.toList, ∀ s ∈ n.texts, OneLine s
  genealogy : g.Worded .oneLine
  renderer : k.Worded .oneLine

namespace Workshop

variable {σ : Type}

theorem counted_draftClass {w : Wording} {p : Prop} {k : Kit σ} {t : Tree ClassNode}
    (hl : k.options.layout.LineFed) (hw : p → ∀ s, w.good s → OneLine s) (hk : k.Worded w)
    (ht : ∀ n ∈ t.toList, w.Holds n.texts) (root : String) (level : Nat) (shop : Workshop σ)
    (hg : shop.genealogy.Worded w) :
    (shop.draftClass k root level t).1.Counted k.options.layout p := by
  have hstart : (Draft.ofRoot root k.options.layout).Counted k.options.layout p :=
    ⟨rfl, Nat.le_refl 0, fun _ => rfl⟩
  exact ((Draft.Counted.carries hl hw).sketch hk ht (fun _ _ => trivial)
    (b := ⟨shop, .ofRoot root k.options.layout⟩) hstart hg).1

/-- The counter of lines after a class has been drafted. -/
theorem line_draftClass (k : Kit σ) (hl : k.options.layout.LineFed) (root : String) (level : Nat)
    (t : Tree ClassNode) (shop : Workshop σ) :
    (shop.draftClass k root level t).1.line ≤
        newlines (shop.draftClass k root level t).1.buffer.text ∧
      (SingleLined k t shop.genealogy → (shop.draftClass k root level t).1.line =
        newlines (shop.draftClass k root level t).1.buffer.text) := by
  constructor
  · have hany := counted_draftClass (w := .any) (p := False) (t := t) hl nofun k.worded_any
      (fun _ _ _ _ _ _ => trivial) root level shop shop.genealogy.worded_any
    exact hany.le
  · intro hone
    have hcounted := counted_draftClass (w := .oneLine) (p := True) hl (fun _ _ hs => hs)
      hone.renderer hone.nodes root level shop hone.genealogy
    exact hcounted.eq trivial

section Initializer

/-- A class with a field and a method, of which the field is given a value. -/
def valued : ClassDecl where
  name := "a/A"
  access := ⟨1⟩
  superclass := some "java/lang/Object"
  fields := [{ name := "f", descriptor := "I", access := ⟨2⟩ }]
  methods := [{ name := "m", descriptor := "()V", access := ⟨1⟩, lineTable := [⟨0, 7⟩] }]

def valuedKit (value : String) : Kit Unit where
  options := {}
  renderer := PreparedBodies.renderer
    { bodies := [("a/A m ()V", "foo();")], initializers := [("a/A f I", value)] } Unit

def valuedShop : Workshop Unit where
  genealogy := { library := .ofList [valued] }
  memory := ()

def valuedTree : Tree ClassNode := .node (.ofDecl valued) []

def valuedDraft (value : String) : Draft :=
  (valuedShop.draftClass (valuedKit value) "a/A" 0 valuedTree).1

theorem line_draftClass_valued :
    (valuedDraft "3").line = 7 ∧ (valuedDraft "3").line = newlines (valuedDraft "3").buffer.text := by
  have hlibrary : ∀ c ∈ [valued], ∀ s ∈ c.texts, OneLine s := by decide
  have hvalue : ∀ c f s, (valuedKit "3").renderer.initializer c f = some s → OneLine s := by
    intro c f s hs
    have he : s = "3" := by
      simp only [valuedKit, PreparedBodies.renderer, List.lookup_cons, List.lookup_nil] at hs
      split at hs
      · exact (Option.some.inj hs).symm
      · cases hs
    exact he ▸ (by decide)
  have hpool : valuedShop.genealogy.library.pool = [] := rfl
  have hone : SingleLined (valuedKit "3") valuedTree valuedShop.genealogy :=
    ⟨by decide, ⟨hlibrary, by simp [hpool]⟩, ⟨hvalue, fun _ _ _ _ h => by cases h⟩⟩
  have hline := (line_draftClass (valuedKit "3") ⟨rfl, by decide⟩ "a/A" 0 valuedTree valuedShop).2 hone
  exact ⟨by decide +kernel, hline⟩

/-- An initializer of two lines counts as one. -/
theorem line_falls_behind :
    (valuedKit "1 +\n      2").options.layout.LineFed ∧ (valuedDraft "1 +\n      2").line = 7 ∧
      newlines (valuedDraft "1 +\n      2").buffer.text = 8 :=
  ⟨⟨rfl, by decide⟩, by decide +kernel, by decide +kernel⟩

end Initializer

end Workshop

end ClassSketch
