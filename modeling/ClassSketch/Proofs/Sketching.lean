import ClassSketch.Proofs.DeclTexts

/-! What is written around bodies, run side by side from two states. Whatever is written there is
a stroke of the pen: a line, or the start or the end of one. A relation between states that strokes
keep, and that looking up names and signatures keeps, is kept by all heads, fields and leads. A
property of a single run is such a relation of a state with itself. -/

namespace ClassSketch

open Text (Within)

/-- From related states two actions give related results and lead to related states. -/
def Keeps {ς α β : Type} (R : ς → ς → Prop) (Q : α → β → Prop) (a : StateM ς α)
    (a' : StateM ς β) : Prop :=
  ∀ b b', R b b' → Q (a b).1 (a' b').1 ∧ R (a b).2 (a' b').2

/-- The results are the same, and of a kind. -/
def Same {α : Type} (P : α → Prop) (a a' : α) : Prop := a = a' ∧ P a

/-- Nothing is asked of the results. -/
def Anyhow {α β : Type} (_ : α) (_ : β) : Prop := True

namespace Keeps

variable {ς α β γ δ : Type} {R : ς → ς → Prop} {Q : α → β → Prop} {P : γ → δ → Prop}

theorem pure {a : α} {a' : β} (h : Q a a') : Keeps R Q (Pure.pure a) (Pure.pure a') :=
  fun _ _ hb => ⟨h, hb⟩

theorem bind {a : StateM ς α} {a' : StateM ς β} {f : α → StateM ς γ} {f' : β → StateM ς δ}
    (h : Keeps R Q a a') (hf : ∀ x x', Q x x' → Keeps R P (f x) (f' x')) :
    Keeps R P (a >>= f) (a' >>= f') := by
  intro b b' hb
  obtain ⟨hq, hr⟩ := h b b' hb
  exact hf _ _ hq _ _ hr

theorem seq {a : StateM ς α} {a' : StateM ς β} {c : StateM ς γ} {c' : StateM ς δ}
    (h : Keeps R Q a a') (hc : Keeps R P c c') :
    Keeps R P (do let _ ← a; c) (do let _ ← a'; c') :=
  h.bind fun _ _ _ => hc

theorem mono {Q' : α → β → Prop} {a : StateM ς α} {a' : StateM ς β} (h : Keeps R Q a a')
    (hq : ∀ x x', Q x x' → Q' x x') : Keeps R Q' a a' :=
  fun b b' hb => ⟨hq _ _ (h b b' hb).1, (h b b' hb).2⟩

theorem bindSame {K : α → Prop} {a a' : StateM ς α} {f : α → StateM ς γ} {f' : α → StateM ς δ}
    (h : Keeps R (Same K) a a') (hf : ∀ x, K x → Keeps R P (f x) (f' x)) :
    Keeps R P (a >>= f) (a' >>= f') := by
  refine h.bind ?_
  rintro x _ ⟨rfl, hx⟩
  exact hf x hx

end Keeps

/-- A brace that is written after the text of a stroke. -/
inductive Brace where
  | opening | closing
deriving DecidableEq

def Brace.text : Brace → String
  | opening => " \x7b"
  | closing => "\x7d"

/-- A piece of text, at most a line: it starts with an indent if it starts a line, and a separator
follows if it ends one. -/
structure Stroke where
  text : String := ""
  starts : Bool := true
  brace : Option Brace := none
  ends : Bool := true

namespace Stroke

def line (s : String) : Stroke := { text := s }

/-- The end of a line that was started before, or an empty line. -/
def stop (s : String) : Stroke := { text := s, starts := false }

def lines (s : Stroke) : Nat := if s.ends then 1 else 0

def render (l : Text.Layout) (level : Nat) (s : Stroke) : String :=
  (if s.starts then l.indentText level else "") ++ s.text ++ (s.brace.elim "" Brace.text)
    ++ if s.ends then l.separator else ""

end Stroke

namespace Draft

def draw (level : Nat) (s : Stroke) (d : Draft) : Draft :=
  { d with
    buffer := d.buffer.append (s.render d.buffer.layout level)
    line := d.line + s.lines }

theorem writeLine_eq_draw (level : Nat) (s : String) (d : Draft) :
    d.writeLine level s = d.draw level (.line s) := by
  simp [writeLine, draw, Stroke.line, Stroke.render, Stroke.lines, Text.Buffer.appendLine,
    Text.Buffer.endLine, Text.Buffer.appendIndent, Text.Buffer.append, String.append_assoc]

theorem writeLine_open_eq_draw (level : Nat) (s : String) (d : Draft) :
    d.writeLine level (s ++ " \x7b") = d.draw level { text := s, brace := some .opening } := by
  simp [writeLine, draw, Stroke.render, Stroke.lines, Text.Buffer.appendLine, Brace.text,
    Text.Buffer.endLine, Text.Buffer.appendIndent, Text.Buffer.append, String.append_assoc]

theorem writeLine_close_eq_draw (level : Nat) (d : Draft) :
    d.writeLine level "\x7d" = d.draw level { brace := some .closing } := by
  simp [writeLine, draw, Stroke.render, Stroke.lines, Text.Buffer.appendLine, Brace.text,
    Text.Buffer.endLine, Text.Buffer.appendIndent, Text.Buffer.append, String.append_assoc]

theorem endLine_eq_draw (level : Nat) (d : Draft) : d.endLine = d.draw level (.stop "") := by
  simp [endLine, draw, Stroke.stop, Stroke.render, Stroke.lines, Text.Buffer.endLine,
    Text.Buffer.append]

theorem append_endLine_eq_draw (level : Nat) (s : String) (d : Draft) :
    (d.append s).endLine = d.draw level (.stop s) := by
  simp [endLine, append, draw, Stroke.stop, Stroke.render, Stroke.lines, Text.Buffer.endLine,
    Text.Buffer.append, String.append_assoc]

theorem append_open_eq_draw (level : Nat) (d : Draft) :
    (d.append " \x7b").endLine = d.draw level { starts := false, brace := some .opening } := by
  simp [endLine, append, draw, Stroke.render, Stroke.lines, Text.Buffer.endLine, Brace.text,
    Text.Buffer.append, String.append_assoc]

theorem append_append (s t : String) (d : Draft) : (d.append s).append t = d.append (s ++ t) := by
  simp [append, Text.Buffer.append, String.append_assoc]

theorem appendIndent_append_eq_draw (level : Nat) (s : String) (d : Draft) :
    (d.appendIndent level).append s = d.draw level { text := s, ends := false } := by
  simp [appendIndent, append, draw, Stroke.render, Stroke.lines, Text.Buffer.appendIndent,
    Text.Buffer.append, String.append_assoc]

theorem closingBrace_eq_draw (n : ClassNode) (level : Nat) (d : Draft) :
    TypeSketch.closingBrace n level d =
      d.draw level { brace := some .closing, ends := n.kind != .anonymous } := by
  by_cases hk : n.kind = .anonymous <;>
    simp [TypeSketch.closingBrace, hk, endLine, appendIndent, append, draw, Stroke.render,
      Stroke.lines, Text.Buffer.appendIndent, Text.Buffer.endLine, Brace.text, Text.Buffer.append,
      String.append_assoc]

end Draft

namespace Bench

variable {σ : Type}

def draw (level : Nat) (s : Stroke) (b : Bench σ) : Bench σ :=
  { b with draft := b.draft.draw level s }

end Bench

/-- What a relation between states has to keep so that all that is written around bodies keeps it,
braces apart. Texts that fit may be drawn. Levels of the two runs are related by `L`, and only
classes in `C` are written. -/
structure Strokes {σ : Type} (w : Wording) (fits : String → Prop) (L : Nat → Nat → Prop)
    (C : ClassDecl → Prop) (R : Bench σ → Bench σ → Prop) : Prop where
  fits_of_within : ∀ s, Within w.letter s → fits s
  fits_append : ∀ s t, fits s → fits t → fits (s ++ t)
  plain : ∀ {b b' level level'} (s : Stroke), s.brace = none → L level level' → fits s.text →
    R b b' → R (b.draw level s) (b'.draw level' s)
  naming : ∀ name, Within w.letter name →
    Keeps R Eq (SketchM.shortName name) (SketchM.shortName name)
  signature : ∀ c, C c → w.Holds c.texts → Keeps R (Same fun s => ∀ x, s = some x → x.Worded w)
    (SketchM.inGenealogy (Genealogy.signature? c)) (SketchM.inGenealogy (Genealogy.signature? c))
  overriding : ∀ c m ps, Keeps R Eq (Override.check c m ps) (Override.check c m ps)

/-- Strokes with the given brace lead from one relation to the other. -/
def Turns {σ : Type} (fits : String → Prop) (L : Nat → Nat → Prop) (brace : Brace)
    (R R' : Bench σ → Bench σ → Prop) : Prop :=
  ∀ ⦃b b' level level'⦄ (s : Stroke), s.brace = some brace → L level level' → fits s.text →
    R b b' → R' (b.draw level s) (b'.draw level' s)

/-- What a relation has to keep that does not look at braces. -/
structure Steps {σ : Type} (w : Wording) (L : Nat → Nat → Prop) (C : ClassDecl → Prop)
    (R : Bench σ → Bench σ → Prop) : Prop extends Strokes w w.good L C R where
  draw : ∀ {b b' level level'} (s : Stroke), L level level' → w.good s.text → R b b' →
    R (b.draw level s) (b'.draw level' s)
  spelling : ∀ name, Keeps R Eq (SketchM.shortName name) (SketchM.shortName name)
  fits_of_within := w.good_of_within
  fits_append := w.good_append
  plain := fun s _ hL hs hb => draw s hL hs hb
  naming := fun name _ => spelling name

theorem Steps.turns {σ : Type} {w : Wording} {L : Nat → Nat → Prop} {C : ClassDecl → Prop}
    {R : Bench σ → Bench σ → Prop} (h : Steps w L C R) (brace : Brace) :
    Turns w.good L brace R R :=
  fun _ _ _ _ s _ hL hs hb => h.draw s hL hs hb

section Edits

variable {σ : Type} {R : Bench σ → Bench σ → Prop}

theorem Steps.edit (f f' : Draft → Draft)
    (hf : ∀ b b' : Bench σ, R b b' →
      R { b with draft := f b.draft } { b' with draft := f' b'.draft }) :
    Keeps R Anyhow (SketchM.edit f) (SketchM.edit f') :=
  fun b b' hb => ⟨trivial, hf b b' hb⟩

theorem Steps.editWhen (p : Bool) (f f' : Draft → Draft)
    (hf : ∀ b b' : Bench σ, R b b' →
      R { b with draft := f b.draft } { b' with draft := f' b'.draft }) :
    Keeps R Anyhow (SketchM.editWhen p f) (SketchM.editWhen p f') := by
  cases p with
  | false => exact Keeps.pure trivial
  | true => exact Steps.edit f f' hf

end Edits

section Braces

variable {σ : Type} {fits : String → Prop} {L : Nat → Nat → Prop}
  {R R' : Bench σ → Bench σ → Prop} {level level' : Nat} {b b' : Bench σ}

theorem Turns.writeOpening (h : Turns fits L .opening R R') (hL : L level level') {s : String}
    (hs : fits s) (hb : R b b') :
    R' { b with draft := b.draft.writeLine level (s ++ " \x7b") }
      { b' with draft := b'.draft.writeLine level' (s ++ " \x7b") } := by
  simp only [Draft.writeLine_open_eq_draw]
  exact h { text := s, brace := some .opening } rfl hL hs hb

theorem Turns.writeClosing (h : Turns fits L .closing R R') (hL : L level level') (hs : fits "")
    (hb : R b b') :
    R' { b with draft := b.draft.writeLine level "\x7d" }
      { b' with draft := b'.draft.writeLine level' "\x7d" } := by
  simp only [Draft.writeLine_close_eq_draw]
  exact h { brace := some .closing } rfl hL hs hb

end Braces

namespace Strokes

variable {σ : Type} {w : Wording} {fits : String → Prop} {L : Nat → Nat → Prop}
  {C : ClassDecl → Prop} {R : Bench σ → Bench σ → Prop} {level level' : Nat}

/-- For the words that sketches write by themselves. -/
theorem fixed (h : Strokes w fits L C R) {s : String} (hs : s.toList.all Text.isPlain = true) :
    fits s :=
  h.fits_of_within s (w.fixed hs)

section Lines

theorem writeLine (h : Strokes w fits L C R) (hL : L level level') {s : String} (hs : fits s)
    {b b' : Bench σ} (hb : R b b') :
    R { b with draft := b.draft.writeLine level s }
      { b' with draft := b'.draft.writeLine level' s } := by
  simp only [Draft.writeLine_eq_draw]
  exact h.plain (.line s) rfl hL hs hb

theorem writeLines (h : Strokes w fits L C R) (hL : L level level') {ss : List String}
    (hs : ∀ s ∈ ss, fits s) {b b' : Bench σ} (hb : R b b') :
    R { b with draft := b.draft.writeLines level ss }
      { b' with draft := b'.draft.writeLines level' ss } := by
  induction ss generalizing b b' with
  | nil => exact hb
  | cons s ss ih =>
    have hfirst := h.writeLine hL (hs s List.mem_cons_self) hb
    exact ih (fun s hs' => hs s (List.mem_cons_of_mem _ hs')) hfirst

theorem endLine (h : Strokes w fits L C R) (hL : L level level') {b b' : Bench σ} (hb : R b b') :
    R { b with draft := b.draft.endLine } { b' with draft := b'.draft.endLine } := by
  rw [Draft.endLine_eq_draw level, Draft.endLine_eq_draw level']
  exact h.plain (.stop "") rfl hL (h.fixed (by decide)) hb

theorem stop (h : Strokes w fits L C R) (hL : L level level') {s : String} (hs : fits s)
    {b b' : Bench σ} (hb : R b b') :
    R { b with draft := (b.draft.append s).endLine }
      { b' with draft := (b'.draft.append s).endLine } := by
  rw [Draft.append_endLine_eq_draw level, Draft.append_endLine_eq_draw level']
  exact h.plain (.stop s) rfl hL hs hb

theorem leadLines (h : Strokes w fits L C R) (hL : L level level') (deprecated : Bool)
    {annotations remarks : List String} (ha : ∀ a ∈ annotations, Within w.letter a)
    (hr : ∀ s ∈ remarks, Within w.letter s) {b b' : Bench σ} (hb : R b b') :
    R { b with draft := ClassSketch.leadLines deprecated annotations remarks level b.draft }
      { b' with draft := ClassSketch.leadLines deprecated annotations remarks level' b'.draft } := by
  have hremarks : ∀ {b b' : Bench σ}, R b b' →
      R { b with draft := remarks.foldl (fun d s => d.remark level s) b.draft }
        { b' with draft := remarks.foldl (fun d s => d.remark level' s) b'.draft } := by
    induction remarks with
    | nil => exact fun hb => hb
    | cons s ss ih =>
      intro b b' hb
      have hs : fits ("// $FF: " ++ s) := h.fits_of_within _
        (Text.within_append.mpr ⟨w.fixed (by decide), hr s List.mem_cons_self⟩)
      exact ih (fun s hs => hr s (List.mem_cons_of_mem _ hs)) (h.writeLine hL hs hb)
  have hannotations : ∀ s ∈ annotations.map annotationText, fits s := by
    intro s hs
    obtain ⟨a, ha', rfl⟩ := List.mem_map.mp hs
    exact h.fits_of_within _ (annotationText_holds (ha a ha'))
  cases deprecated with
  | false => exact h.writeLines hL hannotations (hremarks hb)
  | true =>
    have hmark : fits "/** @deprecated */" := h.fixed (by decide)
    exact h.writeLines hL hannotations (hremarks (h.writeLine hL hmark hb))

end Lines

section Types

theorem within_shortName {name : String} (hn : Within w.letter name) (i : Imports) :
    Within w.letter (Imports.shortName name i).1 := by
  cases hl : i.claimed.lookup (Name.simple (Name.topLevel name)) with
  | none =>
    simp only [Imports.shortName, hl]
    exact w.within_nestedPath hn
  | some holder =>
    by_cases ht : holder = Name.topLevel name
    · simp only [Imports.shortName, hl, ht, if_true]
      exact w.within_nestedPath hn
    · simp only [Imports.shortName, hl, ht, if_false]
      exact w.within_qualified hn

theorem shortName (h : Strokes w fits L C R) {name : String} (hn : Within w.letter name) :
    Keeps R (Same (Within w.letter)) (SketchM.shortName name) (SketchM.shortName name) := by
  intro b b' hb
  obtain ⟨he, hr⟩ := h.naming name hn b b' hb
  exact ⟨⟨he, within_shortName hn b.draft.imports⟩, hr⟩

theorem within_brackets (d : Nat) : Within w.letter (JType.brackets d) :=
  Text.within_replicate (w.fixed (by decide)) d

mutual

theorem display (h : Strokes w fits L C R) : ∀ t : JType, t.Worded w →
    Keeps R (Same (Within w.letter)) (t.display SketchM.shortName) (t.display SketchM.shortName)
  | .prim p d, _ => by
    refine Keeps.pure ⟨rfl, Text.within_append.mpr ⟨?_, within_brackets d⟩⟩
    cases p <;> exact w.fixed (by decide)
  | .var v d, ht => by
    exact Keeps.pure ⟨rfl, Text.within_append.mpr ⟨JType.worded_var.mp ht, within_brackets d⟩⟩
  | .named n as d, ht => by
    obtain ⟨hn, has⟩ := JType.worded_named.mp ht
    rw [JType.display]
    refine (h.shortName hn).bindSame fun name hname => ?_
    refine (displayArgs h as has).bindSame fun args hargs => Keeps.pure ⟨rfl, ?_⟩
    refine Text.within_append.mpr ⟨Text.within_append.mpr ⟨hname, ?_⟩, within_brackets d⟩
    split
    · exact w.fixed (by decide)
    · exact Text.within_append.mpr ⟨Text.within_append.mpr ⟨w.fixed (by decide),
        Text.within_intercalate (w.fixed (by decide)) hargs⟩, w.fixed (by decide)⟩

theorem displayArg (h : Strokes w fits L C R) : ∀ a : TypeArg, a.Worded w →
    Keeps R (Same (Within w.letter)) (JType.displayArg SketchM.shortName a)
      (JType.displayArg SketchM.shortName a)
  | .wildcard, _ => Keeps.pure ⟨rfl, w.fixed (by decide)⟩
  | .exact t, ha => by
    rw [JType.displayArg]
    exact display h t ha
  | .upper t, ha => by
    rw [JType.displayArg]
    exact (display h t ha).bindSame fun s hs =>
      Keeps.pure ⟨rfl, Text.within_append.mpr ⟨w.fixed (by decide), hs⟩⟩
  | .lower t, ha => by
    rw [JType.displayArg]
    exact (display h t ha).bindSame fun s hs =>
      Keeps.pure ⟨rfl, Text.within_append.mpr ⟨w.fixed (by decide), hs⟩⟩

theorem displayArgs (h : Strokes w fits L C R) : ∀ as : List TypeArg, (∀ a ∈ as, a.Worded w) →
    Keeps R (Same (∀ s ∈ ·, Within w.letter s)) (JType.displayArgs SketchM.shortName as)
      (JType.displayArgs SketchM.shortName as)
  | [], _ => Keeps.pure ⟨rfl, by simp⟩
  | a :: as, has => by
    rw [JType.displayArgs]
    refine (displayArg h a (has a List.mem_cons_self)).bindSame fun first hfirst => ?_
    refine (displayArgs h as fun a ha => has a (List.mem_cons_of_mem _ ha)).bindSame
      fun others hothers => ?_
    exact Keeps.pure ⟨rfl, List.forall_mem_cons.mpr ⟨hfirst, hothers⟩⟩

end

theorem typeText (h : Strokes w fits L C R) {t : JType} (ht : t.Worded w) :
    Keeps R (Same (Within w.letter)) (SketchM.typeText t) (SketchM.typeText t) :=
  h.display t ht

theorem typeTexts (h : Strokes w fits L C R) {ts : List JType} (hts : ∀ t ∈ ts, t.Worded w) :
    Keeps R (Same (∀ s ∈ ·, Within w.letter s)) (SketchM.typeTexts ts) (SketchM.typeTexts ts) := by
  induction ts with
  | nil => exact Keeps.pure ⟨rfl, by simp⟩
  | cons t ts ih =>
    refine (h.typeText (hts t List.mem_cons_self)).bindSame fun first hfirst => ?_
    refine (ih fun t ht => hts t (List.mem_cons_of_mem _ ht)).bindSame fun others hothers => ?_
    exact Keeps.pure ⟨rfl, List.forall_mem_cons.mpr ⟨hfirst, hothers⟩⟩

theorem typeParameters (h : Strokes w fits L C R) {ps : List TypeParameter}
    (hps : ∀ p ∈ ps, p.Worded w) :
    Keeps R (Same (Within w.letter)) (SketchM.typeParameters ps) (SketchM.typeParameters ps) := by
  have htexts : Keeps R (Same (∀ s ∈ ·, Within w.letter s)) (SketchM.typeParameterTexts ps)
      (SketchM.typeParameterTexts ps) := by
    induction ps with
    | nil => exact Keeps.pure ⟨rfl, by simp⟩
    | cons p ps ih =>
      have hp := hps p List.mem_cons_self
      refine (h.typeTexts hp.visibleBounds).bindSame fun bounds hbounds => ?_
      refine (ih fun p hp => hps p (List.mem_cons_of_mem _ hp)).bindSame fun others hothers => ?_
      have htext : Within w.letter (if bounds.isEmpty then p.name
          else p.name ++ " : " ++ " & ".intercalate bounds) := by
        split
        · exact hp.name
        · exact Text.within_append.mpr ⟨Text.within_append.mpr ⟨hp.name, w.fixed (by decide)⟩,
            Text.within_intercalate (w.fixed (by decide)) hbounds⟩
      exact Keeps.pure ⟨rfl, List.forall_mem_cons.mpr ⟨htext, hothers⟩⟩
  refine htexts.bindSame fun texts htexts => Keeps.pure ⟨rfl, ?_⟩
  split
  · exact w.fixed (by decide)
  · exact Text.within_append.mpr ⟨Text.within_append.mpr ⟨w.fixed (by decide),
      Text.within_intercalate (w.fixed (by decide)) htexts⟩, w.fixed (by decide)⟩

end Types

end Strokes

end ClassSketch
