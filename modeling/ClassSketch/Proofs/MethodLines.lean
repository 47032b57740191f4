import ClassSketch.Proofs.Bodies
import ClassSketch.Proofs.SketchParts

/-! How many lines a method takes. Separators are counted without overlap, so a text holds at least
as many of them as its parts. A method takes the lines before its body, those of the body and one for
the closing brace; a method that turns out to be hidden leaves none of them in the file. -/

namespace ClassSketch

namespace Text

section Occurrences

variable {sep : List Char}

/-- Starting later finds no more, and starting at most one separator later misses at most one. -/
theorem occurrences_skip (cs : List Char) :
    (∀ skip, occurrences sep (skip + 1) cs ≤ occurrences sep skip cs) ∧
      ∀ skip ≤ sep.length, occurrences sep 0 cs ≤ occurrences sep skip cs + 1 := by
  induction cs with
  | nil => exact ⟨fun _ => Nat.le_refl _, fun _ _ => Nat.zero_le _⟩
  | cons c cs ih =>
    obtain ⟨hstep, hmiss⟩ := ih
    have hlater : ∀ skip skip', skip ≤ skip' → occurrences sep skip' cs ≤ occurrences sep skip cs := by
      intro skip skip' hle
      induction hle with
      | refl => exact Nat.le_refl _
      | step _ ih => exact Nat.le_trans (hstep _) ih
    have hfirst := occurrences.eq_def sep 0 (c :: cs)
    dsimp only at hfirst
    constructor
    · intro skip
      cases skip with
      | succ skip => exact hstep skip
      | zero =>
        change occurrences sep 0 cs ≤ _
        rw [hfirst]
        split
        · exact hmiss _ (Nat.sub_le _ _)
        · exact Nat.le_refl _
    · intro skip hskip
      cases skip with
      | zero => exact Nat.le_succ _
      | succ skip =>
        change _ ≤ occurrences sep skip cs + 1
        rw [hfirst]
        split
        · exact Nat.succ_le_succ (hlater _ _ (by omega))
        · exact hmiss _ (by omega)

theorem occurrences_append (as bs : List Char) {skip : Nat} (h : skip ≤ as.length) :
    occurrences sep skip as + occurrences sep 0 bs ≤ occurrences sep skip (as ++ bs) := by
  induction as generalizing skip with
  | nil =>
    obtain rfl : skip = 0 := Nat.le_zero.mp h
    exact Nat.le_of_eq (Nat.zero_add _)
  | cons a as ih =>
    cases skip with
    | succ skip => exact ih (Nat.le_of_succ_le_succ h)
    | zero =>
      have hnext : occurrences sep 0 (as ++ bs) ≤ occurrences sep 0 (a :: as ++ bs) :=
        (occurrences_skip (a :: as ++ bs)).1 0
      have hall := occurrences.eq_def sep 0 (a :: (as ++ bs))
      rw [List.cons_append] at hnext ⊢
      rw [occurrences.eq_def sep 0 (a :: as)]
      dsimp only at hall ⊢
      split
      · next hfound =>
        have hpre := List.isPrefixOf_iff_prefix.mp hfound
        have hlong : sep.isPrefixOf (a :: (as ++ bs)) = true :=
          List.isPrefixOf_iff_prefix.mpr (hpre.trans (List.prefix_append (a :: as) bs))
        have hlength := hpre.length_le
        rw [List.length_cons] at hlength
        have hskip : sep.length - 1 ≤ as.length := by omega
        have hrest := ih hskip
        rw [hall, if_pos hlong]
        omega
      · have hrest := ih (Nat.zero_le _)
        omega

end Occurrences

theorem countLines_append (separator s t : String) :
    countLines separator s + countLines separator t ≤ countLines separator (s ++ t) := by
  rw [countLines, countLines, countLines]
  split
  · exact Nat.le_refl _
  · rw [String.toList_append]
    exact occurrences_append _ _ (Nat.zero_le _)

/-- A separator is found in itself. -/
theorem countLines_self {separator : String} (h : separator ≠ "") :
    1 ≤ countLines separator separator := by
  have hsome : separator.isEmpty = false := by
    rw [Bool.eq_false_iff]
    exact fun he => h (String.isEmpty_iff.mp he)
  rw [countLines, hsome, if_neg Bool.false_ne_true]
  cases hs : separator.toList with
  | nil => exact absurd (String.toList_eq_nil_iff.mp hs) h
  | cons c cs =>
    have hfound : (c :: cs).isPrefixOf (c :: cs) = true :=
      List.isPrefixOf_iff_prefix.mpr (List.prefix_refl _)
    rw [occurrences, if_pos hfound]
    exact Nat.le_add_left _ _

theorem countLines_append_self {separator : String} (h : separator ≠ "") (s : String) :
    countLines separator s + 1 ≤ countLines separator (s ++ separator) :=
  Nat.le_trans (Nat.add_le_add_left (countLines_self h) _) (countLines_append separator s separator)

end Text

namespace MethodSketch

variable {σ : Type}

section Lead

theorem line_leadLines (deprecated : Bool) (annotations remarks : List String) (level : Nat)
    (d : Draft) : (leadLines deprecated annotations remarks level d).line =
      d.line + ((if deprecated then 1 else 0) + (remarks.length + annotations.length)) := by
  rw [leadLines_eq_writeLines, Draft.writeLines_eq, leadTexts]
  simp only [List.length_append, List.length_map]
  cases deprecated <;> rfl

theorem line_throwsLine (throws : List JType) (level : Nat) (b : Bench σ) :
    (throwsLine throws level b).2.draft.line =
      b.draft.line + if throws = [] then 0 else 1 := by
  have hline : (SketchM.typeTexts throws b).2.draft.line = b.draft.line := by
    rw [SketchM.typeTexts_eq_inImports]
    rfl
  cases throws with
  | nil => rfl
  | cons t ts =>
    rw [if_neg (List.cons_ne_nil t ts), ← hline]
    rfl

def remarkCount (m : MethodDecl) : Nat :=
  (if m.isSynthetic then 1 else 0) + if m.access.has .bridgeFlag then 1 else 0

theorem line_sketchLead (m : MethodDecl) (s : MethodShape) (level : Nat) (b : Bench σ) :
    (sketchLead m s level b).2.draft.line = b.draft.line + remarkCount m +
      ((if m.deprecated then 1 else 0) + m.annotations.length +
        if s.throws = [] then 0 else 1) := by
  have hremarks : ((if m.isSynthetic then ["synthetic method"] else []) ++
      if m.access.has .bridgeFlag then ["bridge method"] else []).length = remarkCount m := by
    rw [remarkCount, List.length_append]
    cases m.isSynthetic <;> cases m.access.has .bridgeFlag <;> rfl
  simp only [sketchLead, bind, StateT.bind, SketchM.edit, modify, modifyGet,
    MonadStateOf.modifyGet, StateT.modifyGet, pure, line_throwsLine, line_leadLines, hremarks]
  omega

/-- Where no stroke is drawn, the draft stays on its line. -/
theorem strokes_line (line : Nat) :
    Strokes Wording.any Wording.any.good (fun _ _ => False) (fun _ => True)
      (Same fun b : Bench σ => b.draft.line = line) where
  fits_of_within := Wording.any.good_of_within
  fits_append := Wording.any.good_append
  plain _ _ hL := hL.elim
  naming _ _ b b' hb := by
    obtain ⟨rfl, hline⟩ := hb
    exact ⟨rfl, rfl, hline⟩
  signature c _ _ b b' hb := by
    obtain ⟨rfl, hline⟩ := hb
    exact ⟨⟨rfl, fun x _ => x.worded_any⟩, rfl, hline⟩
  overriding c m ps b b' hb := by
    obtain ⟨rfl, hline⟩ := hb
    exact ⟨rfl, rfl, (congrArg Draft.line (Override.draft_check c m ps b)).trans hline⟩

theorem line_headText (k : Kit σ) (n : ClassNode) (m : MethodDecl) (b : Bench σ) :
    (headText k n m (.ofMethod k n m) b).2.draft.line = b.draft.line := by
  have hm : Wording.any.Holds m.texts := fun _ _ _ _ => trivial
  have hkeeps := (strokes_line (σ := σ) b.draft.line).headText k.worded_any n hm
    (MethodShape.ofMethod_worded k n hm)
  exact (hkeeps b b ⟨rfl, rfl⟩).2.2

/-- The lines of a method up to its body: those before the head, and the head. -/
def headCount (k : Kit σ) (v : Visit) : Nat :=
  remarkCount v.method + ((if v.method.deprecated then 1 else 0) + v.method.annotations.length +
    if (v.shape k).throws = [] then 0 else 1) + 1

theorem line_leadAndHead (k : Kit σ) (v : Visit) (b : Bench σ) :
    (leadAndHead k v b).2.draft.line + 1 = b.draft.line + headCount k v := by
  have hhead : (leadAndHead k v b).2.draft.line =
      (sketchLead v.method (v.shape k) v.level b).2.draft.line :=
    line_headText k v.node v.method _
  rw [hhead, line_sketchLead, headCount]
  omega

end Lead

/-- The lines that the text of a body takes. Blank text is not written, and a last line without a
separator is ended. -/
def bodyLines (l : Text.Layout) (text : String) : Nat :=
  if Text.isBlankText text then 0
  else Text.countLines l.separator text + if Text.endsWith l.separator text then 0 else 1

theorem line_writeBody (text : String) (d : Draft) : (writeBody text d).line =
    d.line + (Text.countLines d.buffer.layout.separator text +
      if Text.endsWith d.buffer.layout.separator text then 0 else 1) := by
  rw [writeBody]
  split <;> rfl

/-- The lines from the head of a method to its end. A body that could not be rendered leaves a line
in its place. -/
def span (k : Kit σ) (v : Visit) : Option String → Nat
  | none => 2
  | some text =>
    bodyLines k.options.layout text + if fate k v (some text) = .hidden then 0 else 1

/-- What a method takes of the numbers of lines beyond the lines that it leaves in the file, if
`count` lines were counted while its body was rendered. A method that is hidden leaves none, not even
the empty line before it. -/
def lost (k : Kit σ) (v : Visit) (text : Option String) (count : Nat) : Nat :=
  if fate k v text = .hidden then 1 + headCount k v + max count (span k v text)
  else count - span k v text

/-- What follows the rendering of a body. -/
def settleBody (k : Kit σ) (site : BodySite) (n : ClassNode) (m : MethodDecl) (visible level : Nat)
    (r : Rendered) : SketchM σ Outcome := do
  match r.text with
  | none =>
    SketchM.edit (Draft.writeLine (level + 1) placeholder)
    close k site r.trace level
    return .failed
  | some text =>
    let blank := Text.isBlankText text
    if blank && isHiddenWhenEmpty k.options n m visible then return .hidden
    else
      SketchM.editWhen (!blank) (writeBody text)
      if n.decl.isRecord && isGeneratedMember n.decl m text then return .hidden
      else
        close k site r.trace level
        return .written

theorem sketchBody_eq (k : Kit σ) (n : ClassNode) (m : MethodDecl) (visible level : Nat) :
    sketchBody k n m visible level = (do
      let current := (← get).draft.scope.className.getD n.decl.name
      let site : BodySite := ⟨n.decl, m, level + 1, k.options.layout, current⟩
      let rendered ← renderBody k site
      settleBody k site n m visible level rendered) :=
  rfl

/-- What becomes of a method once its body is rendered, and where it ends. -/
theorem settleBody_spec (k : Kit σ) (site : BodySite) (v : Visit) (r : Rendered) (b : Bench σ) :
    let out := settleBody k site v.node v.method (v.shape k).visible.length v.level r b
    out.1 = fate k v r.text ∧ (b.draft.buffer.layout = k.options.layout →
      out.2.draft.line = b.draft.line + span k v r.text) := by
  obtain ⟨text, trace⟩ := r
  cases text with
  | none => exact ⟨rfl, fun _ => rfl⟩
  | some text =>
    have hbody := line_writeBody text b.draft
    rcases hblank : Text.isBlankText text with _ | _ <;>
    rcases hempty : isHiddenWhenEmpty k.options v.node v.method (v.shape k).visible.length
      with _ | _ <;>
    rcases hgenerated : v.node.decl.isRecord && isGeneratedMember v.node.decl v.method text
      with _ | _ <;>
    simp only [settleBody, span, bodyLines, fate, SketchM.editWhen, hblank, hempty, hgenerated,
      Bool.and_true, Bool.and_false, Bool.not_true, Bool.not_false, Bool.false_eq_true, if_true,
      if_false, reduceCtorEq] <;>
    refine ⟨rfl, fun hl => ?_⟩ <;>
    first
      | rfl
      | exact hl ▸ hbody
      | exact congrArg (· + 1) (hl ▸ hbody)

theorem sketchBody_apply (k : Kit σ) (n : ClassNode) (m : MethodDecl) (visible level : Nat)
    (b : Bench σ) :
    let site : BodySite :=
      ⟨n.decl, m, level + 1, k.options.layout, b.draft.scope.className.getD n.decl.name⟩
    let r := renderBody k site b
    sketchBody k n m visible level b = settleBody k site n m visible level r.1 r.2 :=
  rfl

theorem outcome_sketchBody (k : Kit σ) (v : Visit) (b : Bench σ) :
    (sketchBody k v.node v.method (v.shape k).visible.length v.level b).1 =
      fate k v (renderBody k ⟨v.node.decl, v.method, v.level + 1, k.options.layout,
        b.draft.scope.className.getD v.node.decl.name⟩ b).1.text := by
  rw [sketchBody_apply]
  exact (settleBody_spec k _ v _ _).1

end MethodSketch

end ClassSketch
