import ClassSketch.Class.Constant
import ClassSketch.Class.Modifier
import ClassSketch.Text.Buffer
import Mathlib.Data.List.Basic

/-! Texts over an alphabet. Sketches put together what the class files hold, what the renderer gives
and words of their own, so every text keeps to an alphabet that holds all of these. -/

namespace ClassSketch

namespace Text

/-- All characters of the text are letters of the alphabet. -/
def Within (letter : Char → Prop) (s : String) : Prop := ∀ c ∈ s.toList, letter c

instance (letter : Char → Prop) [DecidablePred letter] (s : String) :
    Decidable (Within letter s) :=
  -- The search for an instance may also find one that goes through all characters.
  List.decidableBAll letter s.toList

variable {letter : Char → Prop}

theorem within_append {s t : String} :
    Within letter (s ++ t) ↔ Within letter s ∧ Within letter t := by
  simp only [Within, String.toList_append, List.mem_append, or_imp, forall_and]

theorem within_ofList {cs : List Char} : Within letter (String.ofList cs) ↔ ∀ c ∈ cs, letter c := by
  rw [Within, String.toList_ofList]

theorem within_join {ss : List String} (h : ∀ s ∈ ss, Within letter s) :
    Within letter (String.join ss) := by
  intro c hc
  rw [String.toList_join] at hc
  obtain ⟨s, hs, hc⟩ := List.mem_flatMap.mp hc
  exact h s hs c hc

theorem within_intercalate {sep : String} {ss : List String} (hsep : Within letter sep)
    (h : ∀ s ∈ ss, Within letter s) : Within letter (sep.intercalate ss) := by
  have hall : ∀ css : List (List Char), (∀ cs ∈ css, ∀ c ∈ cs, letter c) →
      ∀ c ∈ sep.toList.intercalate css, letter c := by
    intro css
    induction css with
    | nil => simp [List.intercalate]
    | cons cs css ih =>
      intro hcss c hc
      have hrest := ih fun ds hds => hcss ds (List.mem_cons_of_mem _ hds)
      cases css with
      | nil => exact hcss cs List.mem_cons_self c (by simpa [List.intercalate] using hc)
      | cons ds css =>
        have hc' : c ∈ cs ∨ c ∈ sep.toList ∨ c ∈ sep.toList.intercalate (ds :: css) := by
          simpa [List.intercalate, List.intersperse_cons_cons] using hc
        rcases hc' with hc' | hc' | hc'
        · exact hcss cs List.mem_cons_self c hc'
        · exact hsep c hc'
        · exact hrest c hc'
  intro c hc
  rw [String.toList_intercalate] at hc
  refine hall _ (fun cs hcs => ?_) c hc
  obtain ⟨s, hs, rfl⟩ := List.mem_map.mp hcs
  exact h s hs

theorem within_replicate {s : String} (h : Within letter s) (n : Nat) :
    Within letter (replicate n s) :=
  within_join fun _ ht => (List.mem_replicate.mp ht).2 ▸ h

theorem within_indentText {l : Layout} (h : Within letter l.indent) (level : Nat) :
    Within letter (l.indentText level) :=
  within_replicate h level

/-- The characters of the words that sketches write by themselves, braces apart. -/
def isPlain (c : Char) : Bool :=
  0x20 ≤ c.toNat && c.toNat < 0x7f && c != '\x7b' && c != '\x7d'

theorem isPlain_digitChar (d : Nat) : isPlain (Nat.digitChar d) = true := by
  by_cases hd : d < 16
  · revert d
    decide
  · have hstar : Nat.digitChar d = '*' := by
      simp (disch := omega) only [Nat.digitChar, if_neg]
    rw [hstar]
    decide

theorem isPlain_of_mem_toDigits {base n : Nat} {c : Char} (h : c ∈ Nat.toDigits base n) :
    isPlain c = true := by
  have hcore : ∀ (fuel n : Nat) (cs : List Char), (∀ c ∈ cs, isPlain c = true) →
      ∀ c ∈ Nat.toDigitsCore base fuel n cs, isPlain c = true := by
    intro fuel
    induction fuel with
    | zero => exact fun n cs h => h
    | succ fuel ih =>
      intro n cs hcs
      have hmore : ∀ c ∈ Nat.digitChar (n % base) :: cs, isPlain c = true := by
        intro c hc
        rcases List.mem_cons.mp hc with rfl | hc
        · exact isPlain_digitChar _
        · exact hcs c hc
      simp only [Nat.toDigitsCore]
      split
      · exact hmore
      · exact ih _ _ hmore
  exact hcore _ _ [] (by simp) c h

theorem isPlain_of_mem_toString {n : Int} {c : Char} (h : c ∈ (toString n).toList) :
    isPlain c = true := by
  have hnat : ∀ m : Nat, c ∈ m.repr.toList → isPlain c = true := by
    intro m hm
    rw [Nat.toList_repr] at hm
    exact isPlain_of_mem_toDigits hm
  cases n with
  | ofNat m => exact hnat m h
  | negSucc m =>
    have h' : c ∈ ("-" ++ (m + 1).repr).toList := h
    rw [String.toList_append, List.mem_append] at h'
    rcases h' with h' | h'
    · have hc : c = '-' := by simpa using h'
      subst hc
      decide
    · exact hnat _ h'

end Text

open Text (Within isPlain)

namespace Name

variable {letter : Char → Prop}

theorem within_replaceChars {p : Char → Bool} {by_ : Char} {s : String} (h : Within letter s)
    (hby : letter by_) : Within letter (replaceChars p by_ s) := by
  rw [replaceChars, Text.within_ofList]
  intro c hc
  obtain ⟨d, hd, rfl⟩ := List.mem_map.mp hc
  split
  · exact hby
  · exact h d hd

theorem mem_of_mem_afterLast {sep c : Char} {cs : List Char} (h : c ∈ afterLast sep cs) :
    c ∈ cs := by
  rw [afterLast, List.mem_reverse] at h
  exact List.mem_reverse.mp (List.takeWhile_sublist _ |>.mem h)

theorem within_simple {s : String} (h : Within letter s) : Within letter (simple s) := by
  rw [simple, Text.within_ofList]
  exact fun c hc => h c (mem_of_mem_afterLast hc)

theorem within_lastSegment {s : String} (h : Within letter s) : Within letter (lastSegment s) := by
  rw [lastSegment, Text.within_ofList]
  exact fun c hc => within_simple h c (mem_of_mem_afterLast hc)

theorem within_package {s : String} (h : Within letter s) : Within letter (package s) := by
  rw [package, Text.within_ofList]
  intro c hc
  rw [beforeLast, List.mem_reverse] at hc
  have hc := (List.dropWhile_sublist _).mem ((List.drop_sublist _ _).mem hc)
  exact h c (List.mem_reverse.mp hc)

theorem within_topLevel {s : String} (h : Within letter s) : Within letter (topLevel s) := by
  rw [topLevel]
  split
  · exact h
  · rw [Text.within_ofList]
    intro c hc
    rcases List.mem_append.mp hc with hc | hc
    · exact h c (List.mem_of_mem_take hc)
    · exact h c (mem_of_mem_afterLast ((List.takeWhile_sublist _).mem hc))

end Name

/-- A property that the texts of lines share: texts over an alphabet have it, literals have it, and
it carries over to texts that are put together. -/
structure Wording where
  letter : Char → Prop
  good : String → Prop
  letter_of_isPlain : ∀ c, isPlain c = true → letter c
  good_of_within : ∀ s, Within letter s → good s
  good_append : ∀ s t, good s → good t → good (s ++ t)
  good_literal : ∀ kind c, good (Constant.literal kind c)

namespace Wording

variable (w : Wording)

/-- For the words that sketches write by themselves. -/
theorem fixed {s : String} (h : s.toList.all isPlain = true) : Within w.letter s :=
  fun c hc => w.letter_of_isPlain c (List.all_eq_true.mp h c hc)

theorem within_toString (n : Int) : Within w.letter (toString n) :=
  fun c hc => w.letter_of_isPlain c (Text.isPlain_of_mem_toString hc)

theorem within_qualified {s : String} (h : Within w.letter s) :
    Within w.letter (Name.qualified s) :=
  Name.within_replaceChars h (w.letter_of_isPlain _ (by decide))

theorem within_nestedPath {s : String} (h : Within w.letter s) :
    Within w.letter (Name.nestedPath s) :=
  Name.within_replaceChars (Name.within_simple h) (w.letter_of_isPlain _ (by decide))

theorem within_dottedPackage {s : String} (h : Within w.letter s) :
    Within w.letter (Name.dottedPackage s) :=
  Name.within_replaceChars h (w.letter_of_isPlain _ (by decide))

theorem within_renderLeading (s : ModifierSet) (o : Owner) :
    Within w.letter (s.renderLeading o) := by
  have hword : ∀ m : Modifier, ∀ s ∈ m.keyword?, s.toList.all isPlain = true := by
    intro m
    cases m <;> decide
  apply Text.within_join
  intro t ht
  obtain ⟨word, hw, rfl⟩ := List.mem_map.mp ht
  obtain ⟨m, _, hm⟩ := List.mem_filterMap.mp hw
  exact Text.within_append.mpr ⟨w.fixed (hword m word hm), w.fixed (by decide)⟩

/-- The property of having only letters of the alphabet. -/
def ofLetters (letter : Char → Prop) (hplain : ∀ c, isPlain c = true → letter c)
    (hliteral : ∀ kind c, Within letter (Constant.literal kind c)) : Wording where
  letter := letter
  good := Within letter
  letter_of_isPlain := hplain
  good_of_within _ h := h
  good_append _ _ hs ht := Text.within_append.mpr ⟨hs, ht⟩
  good_literal := hliteral

/-- No condition at all. -/
def any : Wording where
  letter _ := True
  good _ := True
  letter_of_isPlain _ _ := trivial
  good_of_within _ _ := trivial
  good_append _ _ _ _ := trivial
  good_literal _ _ := trivial

end Wording

section OneLine

/-- A text without a line feed. -/
def OneLine (s : String) : Prop := Within (· ≠ '\n') s

instance (s : String) : Decidable (OneLine s) := inferInstanceAs (Decidable (Within _ s))

theorem ne_lineFeed_of_isPlain {c : Char} (h : isPlain c = true) : c ≠ '\n' := by
  rintro rfl
  revert h
  decide

theorem Decimal.isPlain_of_mem_shortest {b : Binary} {c : Char} (h : c ∈ b.shortest.digits) :
    isPlain c = true := by
  simp only [Binary.shortest, Binary.dropTrailingZeros, List.mem_reverse] at h
  exact Text.isPlain_of_mem_toDigits (List.mem_reverse.mp ((List.dropWhile_sublist _).mem h))

theorem Decimal.isPlain_of_mem_write {n : Notation} {b : Binary} {c : Char}
    (h : c ∈ n.write b.shortest) : isPlain c = true := by
  have hdigits : ∀ c ∈ b.shortest.digits, isPlain c = true :=
    fun c hc => isPlain_of_mem_shortest hc
  have hzeros : ∀ n, c ∈ zeros n → isPlain c = true := by
    intro n hc
    rw [(List.mem_replicate.mp hc).2]
    decide
  rw [Notation.write] at h
  split at h
  · rw [positional] at h
    split_ifs at h
    · simp only [List.cons_append, List.mem_cons, List.mem_append] at h
      rcases h with rfl | rfl | h | h
      · decide
      · decide
      · exact hzeros _ h
      · exact hdigits c h
    · simp only [List.mem_append, List.mem_cons, List.not_mem_nil, or_false] at h
      rcases h with (h | h) | rfl | rfl
      · exact hdigits c h
      · exact hzeros _ h
      · decide
      · decide
    · simp only [List.mem_append, List.mem_cons] at h
      rcases h with h | rfl | h
      · exact hdigits c (List.mem_of_mem_take h)
      · decide
      · exact hdigits c (List.mem_of_mem_drop h)
  · simp only [scientific, List.mem_append, List.mem_cons] at h
    rcases h with h | rfl | h
    · split at h
      · cases h
      · rename_i d hd
        exact hdigits c (hd ▸ h)
      · rename_i d ds _ hd
        rcases List.mem_cons.mp h with rfl | h
        · exact hdigits c (hd ▸ List.mem_cons_self)
        · rcases List.mem_cons.mp h with rfl | h
          · decide
          · exact hdigits c (hd ▸ List.mem_cons_of_mem _ h)
    · decide
    · exact Text.isPlain_of_mem_toString h

theorem Decimal.isPlain_of_mem_floatText {f : FloatFormat} {bits : Nat} {c : Char}
    (h : c ∈ (floatText f bits).toList) : isPlain c = true := by
  rw [floatText, String.toList_ofList, List.mem_append] at h
  rcases h with h | h
  · split at h
    · rw [List.mem_singleton.mp h]
      decide
    · cases h
  · generalize f.decode bits = value at h
    cases value with
    | zero => exact List.all_eq_true.mp (by decide) c h
    | finite b => exact isPlain_of_mem_write h
    | infinite => exact List.all_eq_true.mp (by decide) c h
    | undefined => exact List.all_eq_true.mp (by decide) c h

theorem oneLine_charLiteral (value : Int32) : OneLine (Constant.charLiteral value) := by
  rw [Constant.charLiteral]
  split
  · rename_i h
    rw [OneLine, Text.within_ofList]
    intro c hc
    simp only [List.mem_cons, List.not_mem_nil, or_false] at hc
    rcases hc with rfl | rfl | rfl
    · decide
    · intro hlf
      rw [hlf] at h
      simp [Constant.isControl] at h
    · decide
  · refine Text.within_append.mpr ⟨Text.within_append.mpr ⟨by decide, ?_⟩, by decide⟩
    rw [Text.within_ofList]
    intro c hc
    rw [Text.hexPadded, List.mem_append] at hc
    rcases hc with hc | hc
    · rw [(List.mem_replicate.mp hc).2]
      decide
    · exact ne_lineFeed_of_isPlain (Text.isPlain_of_mem_toDigits hc)

theorem oneLine_quoted (s : String) : OneLine (Text.quoted s) := by
  have hchar : ∀ c : Char, ∀ d ∈ Text.quotedChar c, d ≠ '\n' := by
    intro c d hd
    rw [Text.quotedChar] at hd
    split_ifs at hd with h1 h2 h3 h4 h5 h6 h7
    iterate 6 (rintro rfl; revert hd; decide)
    · rintro rfl
      rw [List.mem_singleton] at hd
      exact h4 (by simp [← hd])
    · simp only [List.mem_cons, List.mem_append, List.not_mem_nil, or_false] at hd
      rcases hd with ((rfl | rfl | rfl | hd) | rfl)
      · decide
      · decide
      · decide
      · exact ne_lineFeed_of_isPlain (Text.isPlain_of_mem_toDigits hd)
      · decide
  rw [Text.quoted, OneLine, Text.within_ofList]
  intro d hd
  simp only [List.mem_cons, List.mem_append, List.mem_flatMap, List.not_mem_nil, or_false] at hd
  rcases hd with (rfl | ⟨c, _, hd⟩) | rfl
  · decide
  · exact hchar c d hd
  · decide

/-- No literal is broken into lines. -/
theorem oneLine_literal (kind : Option Primitive) (c : Constant) : OneLine (c.literal kind) := by
  have hint : ∀ n : Int, OneLine (toString n) :=
    fun n c hc => ne_lineFeed_of_isPlain (Text.isPlain_of_mem_toString hc)
  have hfloat : ∀ f bits, OneLine (Decimal.floatText f bits) :=
    fun f bits c hc => ne_lineFeed_of_isPlain (Decimal.isPlain_of_mem_floatText hc)
  cases c with
  | int v =>
    simp only [Constant.literal]
    split
    · split <;> decide
    · exact oneLine_charLiteral v
    · exact hint _
  | long v => exact Text.within_append.mpr ⟨hint _, by decide⟩
  | float v => exact Text.within_append.mpr ⟨hfloat _ _, by decide⟩
  | double v => exact hfloat _ _
  | text s => exact oneLine_quoted s

/-- Texts without a line feed. -/
def Wording.oneLine : Wording :=
  .ofLetters (· ≠ '\n') (fun _ h => ne_lineFeed_of_isPlain h) oneLine_literal

end OneLine

end ClassSketch
