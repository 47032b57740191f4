import ClassSketch.Proofs.Isolation
import ClassSketch.Proofs.MappedLines

/-! Text one level deeper. Each line that is not empty gets one more indent. Whole lines can be moved
one after another, and the body of a method one level deeper is its body moved. -/

namespace ClassSketch

namespace Text

theorem append_ne_of_left {s : String} (h : s ≠ "") (t : String) : s ++ t ≠ "" :=
  fun he => h (String.append_eq_empty_iff.mp he).1

theorem append_ne_of_right (s : String) {t : String} (h : t ≠ "") : s ++ t ≠ "" :=
  fun he => h (String.append_eq_empty_iff.mp he).2

/-- A line with an indent before it, unless it is empty. -/
def shiftLine (indent line : List Char) : List Char := if line.isEmpty then line else indent ++ line

/-- A text with an indent before each line that is not empty. -/
def shiftLines (indent s : String) : String :=
  .ofList (['\n'].intercalate ((s.toList.splitOn '\n').map (shiftLine indent.toList)))

variable {indent : String}

theorem intercalate_append {α : Type} (sep : List α) {xss yss : List (List α)} (hx : xss ≠ [])
    (hy : yss ≠ []) :
    sep.intercalate (xss ++ yss) = sep.intercalate xss ++ sep ++ sep.intercalate yss := by
  induction xss with
  | nil => exact absurd rfl hx
  | cons xs xss ih =>
    cases xss with
    | nil =>
      obtain ⟨ys, yss, rfl⟩ := List.exists_cons_of_ne_nil hy
      simp [List.intercalate]
    | cons xs' xss =>
      have hrest := ih (List.cons_ne_nil _ _)
      simp only [List.intercalate, List.cons_append, List.intersperse_cons_cons, List.flatten_cons,
        List.append_assoc] at hrest ⊢
      rw [hrest]

theorem shiftLines_lineFeed (indent s t : String) :
    shiftLines indent (s ++ "\n" ++ t) = shiftLines indent s ++ "\n" ++ shiftLines indent t := by
  have hchars : (s ++ "\n" ++ t).toList = s.toList ++ '\n' :: t.toList := by
    simp [String.toList_append]
  have hsome : ∀ r : String, (r.toList.splitOn '\n').map (shiftLine indent.toList) ≠ [] := by
    intro r
    simp [List.splitOn_ne_nil]
  apply String.toList_injective
  rw [shiftLines, hchars, splitOn_append_lineFeed, List.map_append,
    intercalate_append _ (hsome s) (hsome t)]
  simp [shiftLines, String.toList_append]

theorem shiftLines_oneLine {s : String} (h : OneLine s) :
    shiftLines indent s = if s = "" then "" else indent ++ s := by
  have hsingle : s.toList.splitOn '\n' = [s.toList] :=
    List.splitOn_eq_singleton fun hmem => h '\n' hmem rfl
  apply String.toList_injective
  by_cases hs : s = ""
  · simp [shiftLines, hs, shiftLine, List.intercalate]
  · simp [shiftLines, hsingle, shiftLine, hs, List.intercalate]

theorem shiftLines_empty : shiftLines indent "" = "" := by
  rw [shiftLines_oneLine (by decide), if_pos rfl]

/-- What follows whole lines is moved by itself. -/
theorem Closed.shiftLines_append {s : String} (h : Closed s) (t : String) :
    shiftLines indent (s ++ t) = shiftLines indent s ++ shiftLines indent t := by
  rcases h with rfl | ⟨r, rfl⟩
  · rw [shiftLines_empty, String.empty_append, String.empty_append]
  · have hend := shiftLines_lineFeed indent r ""
    rw [String.append_empty, shiftLines_empty, String.append_empty] at hend
    rw [shiftLines_lineFeed, hend]

theorem shiftLines_line {s : String} (h : OneLine s) (hne : s = "" → indent = "") :
    shiftLines indent (s ++ "\n") = indent ++ s ++ "\n" := by
  have hend := shiftLines_lineFeed indent s ""
  rw [String.append_empty, shiftLines_empty, String.append_empty, shiftLines_oneLine h] at hend
  rw [hend]
  split
  · next hs => rw [hs, hne hs]; rfl
  · rfl

theorem Closed.shiftLines {s : String} (h : Closed s) : Closed (shiftLines indent s) := by
  rcases h with rfl | ⟨r, rfl⟩
  · exact .inl shiftLines_empty
  · have hend := shiftLines_lineFeed indent r ""
    rw [String.append_empty, shiftLines_empty, String.append_empty] at hend
    exact .inr ⟨_, hend⟩

theorem Layout.indentText_succ (l : Layout) (level : Nat) :
    l.indentText (level + 1) = l.indent ++ l.indentText level := by
  apply String.toList_injective
  simp [indentText, replicate, String.toList_join, List.replicate_succ]

theorem isBlankText_append (s t : String) :
    isBlankText (s ++ t) = (isBlankText s && isBlankText t) := by
  rw [isBlankText, String.toList_append, List.all_append, isBlankText, isBlankText]

theorem isBlankText_indentText_succ (l : Layout) (level : Nat) :
    isBlankText (l.indentText (level + 1)) = isBlankText l.indent := by
  induction level with
  | zero =>
    have hnone : isBlankText (l.indentText 0) = true := rfl
    rw [l.indentText_succ, isBlankText_append, hnone, Bool.and_true]
  | succ level ih => rw [l.indentText_succ, isBlankText_append, ih, Bool.and_self]

/-- A carriage return at the end of a line is trimmed anyway. -/
theorem trimChars_closeLine (cs : List Char) : trimChars (closeLine cs.reverse) = trimChars cs := by
  have hreturn : isBlank '\r' = true := by decide
  have htrim : ∀ ds, trimChars (ds ++ ['\r']) = trimChars ds := by
    intro ds
    rw [trimChars, trimChars, List.dropWhile_append]
    split
    · next hall =>
      have hnil : ds.dropWhile isBlank = [] := List.isEmpty_iff.mp hall
      rw [hnil]
      decide
    · rw [List.reverse_append, List.reverse_singleton, List.singleton_append,
        List.dropWhile_cons_of_pos hreturn]
  rw [closeLine.eq_def]
  split
  · next ds hds =>
    have hcs : cs = ds.reverse ++ ['\r'] := by
      rw [← List.reverse_reverse cs, hds, List.reverse_cons]
    rw [hcs, htrim]
  · rw [List.reverse_reverse]

end Text

open Text (Closed newlines shiftLines)

/-- The method with its class one level deeper. -/
def Visit.deeper (v : Visit) : Visit := { v with level := v.level + 1 }

namespace PreparedBodies

theorem shiftLines_layOut (site : BodySite) (hl : site.layout.LineFed) {level : Nat}
    (hlevel : site.level = level + 1) {lines : List String} (hlines : ∀ line ∈ lines, OneLine line)
    (entries entries' : List LineEntry) (t t' : Trace) :
    shiftLines site.layout.indent (layOut site lines entries t).1 =
      (layOut { site with level := site.level + 1 } lines entries' t').1 := by
  induction lines generalizing entries entries' t t' with
  | nil => exact Text.shiftLines_empty
  | cons line lines ih =>
    have hline : OneLine (lineText site line) := Text.within_append.mpr
      ⟨Text.within_indentText hl.indent site.level, hlines line List.mem_cons_self⟩
    have hempty : lineText site line = "" → site.layout.indent = "" := by
      intro h
      rw [lineText, hlevel, site.layout.indentText_succ, String.append_eq_empty_iff,
        String.append_eq_empty_iff] at h
      exact h.1.1
    have hdeeper : lineText { site with level := site.level + 1 } line =
        site.layout.indent ++ lineText site line := by
      rw [lineText, lineText, site.layout.indentText_succ, String.append_assoc]
    have hclosed : Closed (lineText site line ++ "\n") := .inr ⟨_, rfl⟩
    rw [layOut_cons, layOut_cons, hl.separator, hclosed.shiftLines_append,
      Text.shiftLines_line hline hempty, hdeeper]
    exact congrArg _ (ih (fun l h => hlines l (List.mem_cons_of_mem _ h)) _ _ _ _)

/-- Offsets do not depend on the level. -/
theorem trace_layOut (site : BodySite) (level : Nat) (lines : List String)
    (entries : List LineEntry) (t : Trace) :
    (layOut { site with level } lines entries t).2 = (layOut site lines entries t).2 := by
  induction lines generalizing entries t with
  | nil => rfl
  | cons line lines ih =>
    rw [layOut_cons, layOut_cons]
    exact ih _ _

/-- Below the margin a body is blank if the indent and all its lines are, or if it has no line. -/
theorem isBlankText_layOut_eq (site : BodySite) (hl : site.layout.LineFed) {level : Nat}
    (hlevel : site.level = level + 1) (lines : List String) (entries : List LineEntry) (t : Trace) :
    Text.isBlankText (layOut site lines entries t).1 =
      lines.all fun line => Text.isBlankText site.layout.indent && Text.isBlankText line := by
  have hfeed : Text.isBlankText "\n" = true := by decide
  induction lines generalizing entries t with
  | nil => rfl
  | cons line lines ih =>
    rw [layOut_cons, hl.separator, List.all_cons, ← ih entries.tail
      ((entries.head?.elim t fun e => t.mark e.startPc.toNat).advance 1)]
    simp only [lineText, Text.isBlankText_append, hlevel, Text.isBlankText_indentText_succ, hfeed,
      Bool.and_true]

/-- After an indent of blanks the lines of a body are those of its source, once trimmed. -/
theorem lines_layOut (site : BodySite) (hl : site.layout.LineFed)
    (hblank : Text.isBlankText site.layout.indent = true) {lines : List String}
    (hlines : ∀ line ∈ lines, OneLine line) (entries : List LineEntry) (t : Trace) :
    (Text.lines (layOut site lines entries t).1).map Text.trim = lines.map Text.trim := by
  have hspaces : Text.Within (Text.isBlank · = true) (site.layout.indentText site.level) :=
    Text.within_indentText (List.all_eq_true.mp hblank) site.level
  induction lines generalizing entries t with
  | nil => rfl
  | cons line lines ih =>
    have hline : OneLine (lineText site line) := Text.within_append.mpr
      ⟨Text.within_indentText hl.indent site.level, hlines line List.mem_cons_self⟩
    have hrest := ih (fun l h => hlines l (List.mem_cons_of_mem _ h)) entries.tail
      ((entries.head?.elim t fun e => t.mark e.startPc.toNat).advance 1)
    have hchars : ∀ rest : String, (lineText site line ++ "\n" ++ rest).toList =
        (lineText site line).toList ++ '\n' :: rest.toList := by
      intro rest
      simp [String.toList_append]
    have hfirst : Text.trimChars (lineText site line).toList = Text.trimChars line.toList := by
      rw [lineText, String.toList_append, trimChars_append hspaces]
    rw [layOut_cons, hl.separator, Text.lines, hchars, splitLines_append hline, List.append_nil,
      List.map_cons, List.map_cons, List.map_cons, ← hrest, Text.lines, Text.trim,
      String.toList_ofList, Text.trimChars_closeLine, hfirst, Text.trim]

section Bodies

variable {σ : Type} {p : PreparedBodies} {o : Options}

theorem shiftLines_bodyText (hl : o.layout.LineFed) (v : Visit) :
    shiftLines o.layout.indent (p.bodyText o v) = p.bodyText o v.deeper := by
  rw [bodyText_eq_layOut, bodyText_eq_layOut]
  exact shiftLines_layOut (v.site o) hl rfl (fun _ h => Text.oneLine_of_mem_lines h) _ _ _ _

theorem whole_bodyText (hl : o.layout.LineFed) (v : Visit) :
    newlines (p.bodyText o v) = (Text.lines (p.source v)).length ∧ Closed (p.bodyText o v) := by
  have hfed : (v.site o).layout.LineFed := hl
  rw [bodyText_eq_layOut]
  exact newlines_layOut hfed (fun _ h => Text.oneLine_of_mem_lines h) _ _

theorem isBlankText_bodyText_deeper (hl : o.layout.LineFed) (v : Visit) :
    Text.isBlankText (p.bodyText o v.deeper) = Text.isBlankText (p.bodyText o v) := by
  rw [bodyText_eq_layOut, bodyText_eq_layOut, isBlankText_layOut_eq (v.deeper.site o) hl rfl,
    isBlankText_layOut_eq (v.site o) hl rfl]
  rfl

/-- The text of the body reads like what the compiler adds to a record at both levels or at
neither. -/
def Steady (p : PreparedBodies) (o : Options) (v : Visit) : Prop :=
  v.node.decl.isRecord = true →
    MethodSketch.isGeneratedMember v.node.decl v.method (p.bodyText o v.deeper) =
      MethodSketch.isGeneratedMember v.node.decl v.method (p.bodyText o v)

theorem steady_of_blank (hl : o.layout.LineFed) (hblank : Text.isBlankText o.layout.indent = true)
    (v : Visit) : p.Steady o v := by
  intro _
  have hlines : ∀ v : Visit, (Text.lines (p.bodyText o v)).map Text.trim =
      (Text.lines (p.source v)).map Text.trim := by
    intro v
    rw [bodyText_eq_layOut]
    exact lines_layOut (v.site o) hl hblank (fun _ h => Text.oneLine_of_mem_lines h) _ _
  rw [MethodSketch.isGeneratedMember, MethodSketch.isGeneratedMember, hlines, hlines]
  rfl

theorem fate_deeper (hl : o.layout.LineFed) {v : Visit} (hv : p.Steady o v) :
    MethodSketch.fate (p.kit o σ) v.deeper (some (p.bodyText o v.deeper)) =
      MethodSketch.fate (p.kit o σ) v (some (p.bodyText o v)) := by
  have hblank := isBlankText_bodyText_deeper (p := p) hl v
  rw [Steady] at hv
  generalize p.bodyText o v.deeper = text at hblank hv ⊢
  have hgenerated : (v.node.decl.isRecord &&
      MethodSketch.isGeneratedMember v.node.decl v.method text) = (v.node.decl.isRecord &&
        MethodSketch.isGeneratedMember v.node.decl v.method (p.bodyText o v)) := by
    cases hrecord : v.node.decl.isRecord with
    | false => rw [Bool.false_and, Bool.false_and]
    | true => rw [hv hrecord]
  have hfate : MethodSketch.fate (p.kit o σ) v.deeper (some text) =
      MethodSketch.fate (p.kit o σ) v (some text) := rfl
  rw [hfate, MethodSketch.fate, MethodSketch.fate, hblank, hgenerated]

end Bodies

end PreparedBodies

namespace Draft

/-- The draft of the same text one level deeper. -/
def deeper (d : Draft) : Draft :=
  { d with buffer :=
      { d.buffer with text := shiftLines d.buffer.layout.indent d.buffer.text } }

/-- Some text more, which counts as the given number of lines. -/
def add (text : String) (lines : Nat) (d : Draft) : Draft :=
  { d with buffer := d.buffer.append text, line := d.line + lines }

/-- A draft of whole lines, inside the given class if any, and the same draft one level deeper. -/
structure Deepens (l : Text.Layout) (inside : Option String) (d d' : Draft) : Prop where
  layout : d.buffer.layout = l
  closed : Closed d.buffer.text
  className : d.scope.className = inside
  deeper : d' = d.deeper

/-- Two drafts in the middle of a line that has one more indent in the second one. -/
def Pends (l : Text.Layout) (inside : Option String) (d d' : Draft) : Prop :=
  ∃ e e' line, Deepens l inside e e' ∧ OneLine line ∧ d = e.append line ∧
    d' = e'.append (l.indent ++ line)

namespace Deepens

variable {l : Text.Layout} {inside : Option String} {d d' : Draft}

theorem layout' (h : Deepens l inside d d') : d'.buffer.layout = l := h.deeper ▸ h.layout

theorem add (h : Deepens l inside d d') {text : String} (htext : Closed text) (lines : Nat) :
    Deepens l inside (d.add text lines) (d'.add (shiftLines l.indent text) lines) where
  layout := h.layout
  closed := h.closed.append htext
  className := h.className
  deeper := by
    obtain ⟨rfl, hclosed, _, rfl⟩ := h
    simp only [Draft.add, Draft.deeper, Text.Buffer.append, hclosed.shiftLines_append]

/-- A line that is not empty, with its indents. -/
theorem line (hl : l.LineFed) (h : Deepens l inside d d') (level : Nat) {s : String}
    (hs : OneLine s) (hne : s ≠ "") :
    Deepens l inside (d.add (l.indentText level ++ s ++ "\n") 1)
      (d'.add (l.indentText (level + 1) ++ s ++ "\n") 1) := by
  have hline : OneLine (l.indentText level ++ s) :=
    Text.within_append.mpr ⟨Text.within_indentText hl.indent level, hs⟩
  have hempty : l.indentText level ++ s = "" → l.indent = "" := fun he =>
    absurd he (Text.append_ne_of_right _ hne)
  have hadd := h.add (.inr ⟨l.indentText level ++ s, rfl⟩) 1
  rw [Text.shiftLines_line hline hempty, ← String.append_assoc, ← l.indentText_succ] at hadd
  exact hadd

theorem writeLine (hl : l.LineFed) (h : Deepens l inside d d') (level : Nat) {s : String}
    (hs : OneLine s) (hne : s ≠ "") :
    Deepens l inside (d.writeLine level s) (d'.writeLine (level + 1) s) := by
  have hwrite : ∀ e : Draft, e.buffer.layout = l → ∀ level, e.writeLine level s =
      e.add (l.indentText level ++ s ++ "\n") 1 := by
    rintro e rfl level
    simp only [Draft.writeLine, Draft.add, Text.Buffer.appendLine, Text.Buffer.endLine,
      Text.Buffer.appendIndent, Text.Buffer.append, hl.separator, String.append_assoc]
  rw [hwrite d h.layout, hwrite d' h.layout']
  exact h.line hl level hs hne

theorem endLine (hl : l.LineFed) (h : Deepens l inside d d') :
    Deepens l inside d.endLine d'.endLine := by
  have hend : ∀ e : Draft, e.buffer.layout = l → e.endLine = e.add "\n" 1 := by
    rintro e rfl
    rw [Draft.endLine, Text.Buffer.endLine, hl.separator, Draft.add]
  have hempty : shiftLines l.indent "\n" = "\n" := by
    have hsplit := Text.shiftLines_lineFeed l.indent "" ""
    rwa [Text.shiftLines_empty] at hsplit
  have hadd := h.add (.inr ⟨"", rfl⟩ : Closed "\n") 1
  rw [hempty] at hadd
  rw [hend d h.layout, hend d' h.layout']
  exact hadd

theorem writeLines (hl : l.LineFed) (h : Deepens l inside d d') (level : Nat) {ss : List String}
    (hss : ∀ s ∈ ss, OneLine s ∧ s ≠ "") :
    Deepens l inside (d.writeLines level ss) (d'.writeLines (level + 1) ss) := by
  induction ss generalizing d d' with
  | nil => exact h
  | cons s ss ih =>
    obtain ⟨⟨hs, hne⟩, hss⟩ := List.forall_mem_cons.mp hss
    exact ih (h.writeLine hl level hs hne) hss

theorem leadLines (hl : l.LineFed) (h : Deepens l inside d d') (level : Nat) (deprecated : Bool)
    {annotations remarks : List String} (ha : ∀ a ∈ annotations, OneLine a)
    (hr : ∀ s ∈ remarks, OneLine s) :
    Deepens l inside (leadLines deprecated annotations remarks level d)
      (leadLines deprecated annotations remarks (level + 1) d') := by
  have hremarks : ∀ {d d' : Draft}, Deepens l inside d d' →
      Deepens l inside (remarks.foldl (fun d s => d.remark level s) d)
        (remarks.foldl (fun d s => d.remark (level + 1) s) d') := by
    induction remarks with
    | nil => exact fun h => h
    | cons s ss ih =>
      intro d d' h
      obtain ⟨hs, hss⟩ := List.forall_mem_cons.mp hr
      have hline : OneLine ("// $FF: " ++ s) := Text.within_append.mpr ⟨by decide, hs⟩
      have hne : "// $FF: " ++ s ≠ "" := Text.append_ne_of_left (by decide) s
      exact ih hss (h.writeLine hl level hline hne)
  have hannotations : ∀ s ∈ annotations.map annotationText, OneLine s ∧ s ≠ "" := by
    intro s hs
    obtain ⟨a, ha', rfl⟩ := List.mem_map.mp hs
    refine ⟨annotationText_holds (w := .oneLine) (ha a ha'), ?_⟩
    rw [annotationText]
    split
    · next hstarts =>
      rintro rfl
      cases hstarts
    · exact Text.append_ne_of_left (by decide) a
  cases deprecated with
  | false => exact (hremarks h).writeLines hl level hannotations
  | true =>
    have hmark := h.writeLine hl level (s := "/** @deprecated */") (by decide) (by decide)
    exact (hremarks hmark).writeLines hl level hannotations

/-- A line is begun. -/
theorem pends (hl : l.LineFed) (h : Deepens l inside d d') (level : Nat) {s : String}
    (hs : OneLine s) :
    Pends l inside ((d.appendIndent level).append s) ((d'.appendIndent (level + 1)).append s) := by
  have hline : OneLine (l.indentText level ++ s) :=
    Text.within_append.mpr ⟨Text.within_indentText hl.indent level, hs⟩
  have hbegin : ∀ e : Draft, e.buffer.layout = l → ∀ level, (e.appendIndent level).append s =
      e.append (l.indentText level ++ s) := by
    rintro e rfl level
    simp only [Draft.appendIndent, Draft.append, Text.Buffer.appendIndent, Text.Buffer.append,
      String.append_assoc]
  refine ⟨d, d', l.indentText level ++ s, h, hline, hbegin d h.layout level, ?_⟩
  rw [hbegin d' h.layout', l.indentText_succ, String.append_assoc]

/-- Back to an earlier text. -/
theorem rewind (h : Deepens l inside d d') {before before' : Draft}
    (hbefore : Deepens l inside before before') :
    Deepens l inside (Draft.rewind before d) (Draft.rewind before' d') where
  layout := hbefore.layout
  closed := hbefore.closed
  className := h.className
  deeper := by
    rw [h.deeper, hbefore.deeper]
    rfl

end Deepens

/-- The end of a line that was begun. -/
theorem Pends.stop {l : Text.Layout} (hl : l.LineFed) {inside : Option String} {d d' : Draft}
    (h : Pends l inside d d') {s : String} (hs : OneLine s) (hne : s ≠ "") :
    Deepens l inside (d.append s).endLine (d'.append s).endLine := by
  obtain ⟨e, e', line, he, hline, rfl, rfl⟩ := h
  have hstop : ∀ (c : Draft) (begun : String), c.buffer.layout = l →
      ((c.append begun).append s).endLine = c.add (begun ++ s ++ "\n") 1 := by
    rintro c begun rfl
    simp only [Draft.append, Draft.endLine, Draft.add, Text.Buffer.append, Text.Buffer.endLine,
      hl.separator, String.append_assoc]
  have hempty : line ++ s = "" → l.indent = "" := fun h =>
    absurd h (Text.append_ne_of_right _ hne)
  have hadd := he.add (.inr ⟨line ++ s, rfl⟩) 1
  rw [Text.shiftLines_line (Text.within_append.mpr ⟨hline, hs⟩) hempty, ← String.append_assoc] at hadd
  rw [hstop e line he.layout, hstop e' _ he.layout']
  exact hadd

end Draft

end ClassSketch
