import ClassSketch.Class.Constant
import ClassSketch.Json.Reader
import Mathlib.Data.List.Nodup
import Mathlib.Tactic.SplitIfs

/-! Literals of characters and texts, and the values that a reader of source takes from them. The
grammar knows an escape with exactly four hexadecimal digits. Characters are written in it, apart
from the quote and the backslash. Texts are written with digits in braces and with a digit for the
null character, so a text that has a hidden character is written as no literal at all. -/

namespace ClassSketch

namespace Literal

def isLineEnd (c : Char) : Bool := c == '\n' || c == '\r'

/-- The letters that stand for a unit after a backslash. -/
def shortEscapes : List (Char × Nat) :=
  [('t', 9), ('b', 8), ('n', 10), ('r', 13), ('\'', 39), ('"', 34), ('\\', 92)]

/-- The 16-bit units of a character. -/
def units (c : Char) : List Nat :=
  if c.toNat < 0x10000 then [c.toNat]
  else [0xD800 + (c.toNat - 0x10000) / 0x400, 0xDC00 + (c.toNat - 0x10000) % 0x400]

/-- One character between quotes, or one escape, and the units that it stands for. -/
inductive Piece (quote : Char) : List Char → List Nat → Prop where
  | shown {c : Char} : c ≠ quote → c ≠ '\\' → isLineEnd c = false → Piece quote [c] (units c)
  | short {c : Char} {v : Nat} : (c, v) ∈ shortEscapes → Piece quote ['\\', c] [v]
  | unit {a b c d : Char} {v : Nat} : Json.readUnit [a, b, c, d] = some (v, []) →
      Piece quote ['\\', 'u', a, b, c, d] [v]

inductive Pieces (quote : Char) : List Char → List Nat → Prop where
  | nil : Pieces quote [] []
  | cons {cs rest : List Char} {us more : List Nat} : Piece quote cs us → Pieces quote rest more →
      Pieces quote (cs ++ rest) (us ++ more)

def IsChar (literal : String) (v : Nat) : Prop :=
  ∃ body, literal.toList = '\'' :: (body ++ ['\'']) ∧ Piece '\'' body [v]

def IsText (literal : String) (us : List Nat) : Prop :=
  ∃ body, literal.toList = '"' :: (body ++ ['"']) ∧ Pieces '"' body us

/-- What texts can hold and still be read back. -/
def Spellable (c : Char) : Prop :=
  c ∈ ['"', '\\', '\t', '\n', '\r'] ∨ Text.isPrintable c = true

section Reading

variable {quote c e : Char} {rest : List Char} {us : List Nat}

theorem Pieces.inv {cs : List Char} (h : Pieces quote cs us) : (cs = [] ∧ us = []) ∨
    ∃ p r vs ws, cs = p ++ r ∧ us = vs ++ ws ∧ Piece quote p vs ∧ Pieces quote r ws := by
  cases h with
  | nil => exact .inl ⟨rfl, rfl⟩
  | cons hp hr => exact .inr ⟨_, _, _, _, rfl, rfl, hp, hr⟩

theorem pieces_shown_iff (hc : c ≠ '\\') : Pieces quote (c :: rest) us ↔
    c ≠ quote ∧ isLineEnd c = false ∧ ∃ more, us = units c ++ more ∧ Pieces quote rest more := by
  constructor
  · intro h
    obtain ⟨hnil, _⟩ | ⟨p, r, vs, ws, hcs, rfl, hp, hr⟩ := h.inv
    · cases hnil
    · cases hp with
      | shown hquote _ hend =>
        obtain ⟨rfl, rfl⟩ := List.cons.inj hcs
        exact ⟨hquote, hend, ws, rfl, hr⟩
      | short _ => exact absurd (List.cons.inj hcs).1 hc
      | unit _ => exact absurd (List.cons.inj hcs).1 hc
  · rintro ⟨hquote, hend, more, rfl, hrest⟩
    exact .cons (.shown hquote hc hend) hrest

theorem pieces_short_iff (he : e ≠ 'u') : Pieces quote ('\\' :: e :: rest) us ↔
    ∃ v more, (e, v) ∈ shortEscapes ∧ us = v :: more ∧ Pieces quote rest more := by
  constructor
  · intro h
    obtain ⟨hnil, _⟩ | ⟨p, r, vs, ws, hcs, rfl, hp, hr⟩ := h.inv
    · cases hnil
    · cases hp with
      | shown _ hother _ => exact absurd (List.cons.inj hcs).1.symm hother
      | short hv =>
        obtain ⟨rfl, rfl⟩ := List.cons.inj (List.cons.inj hcs).2
        exact ⟨_, ws, hv, rfl, hr⟩
      | unit _ => exact absurd (List.cons.inj (List.cons.inj hcs).2).1 he
  · rintro ⟨v, more, hv, rfl, hrest⟩
    exact .cons (.short hv) hrest

/-- An escape in braces cannot be read. -/
theorem not_pieces_braced : ¬ Pieces quote ('\\' :: 'u' :: '\x7b' :: rest) us := by
  intro h
  obtain ⟨hnil, _⟩ | ⟨p, r, vs, ws, hcs, rfl, hp, hr⟩ := h.inv
  · cases hnil
  · cases hp with
    | shown _ hother _ => exact absurd (List.cons.inj hcs).1.symm hother
    | short hv =>
      obtain ⟨rfl, _⟩ := List.cons.inj (List.cons.inj hcs).2
      simp [shortEscapes] at hv
    | unit hv =>
      obtain ⟨rfl, _⟩ := List.cons.inj (List.cons.inj (List.cons.inj hcs).2).2
      have hnone : Json.hexDigit? '\x7b' = none := by decide
      simp [Json.readUnit, hnone] at hv

end Reading

section Texts

theorem short_unique {e : Char} {v w : Nat} (hv : (e, v) ∈ shortEscapes)
    (hw : (e, w) ∈ shortEscapes) : v = w := by
  have hkeys : (shortEscapes.map Prod.fst).Nodup := by decide
  exact Prod.mk.inj (List.inj_on_of_nodup_map hkeys hv hw rfl) |>.2

/-- The four ways in which a character of a text is written. -/
inductive Quoting (c : Char) : List Char → Prop where
  | short {e : Char} {v : Nat} : (e, v) ∈ shortEscapes → e ≠ 'u' → units c = [v] → Spellable c →
      Quoting c ['\\', e]
  | shown : c ≠ '"' → c ≠ '\\' → isLineEnd c = false → Spellable c → Quoting c [c]
  | null : ¬ Spellable c → Quoting c ['\\', '0']
  | braced (ds : List Char) : ¬ Spellable c → Quoting c ('\\' :: 'u' :: '\x7b' :: ds)

theorem quoting_quotedChar (c : Char) : Quoting c (Text.quotedChar c) := by
  rw [Text.quotedChar]
  split_ifs with hquote hslash htab hfeed hreturn hnull hshown
  · obtain rfl := eq_of_beq hquote
    exact .short (v := 34) (by decide) (by decide) (by decide) (.inl (by decide))
  · obtain rfl := eq_of_beq hslash
    exact .short (v := 92) (by decide) (by decide) (by decide) (.inl (by decide))
  · obtain rfl := eq_of_beq htab
    exact .short (v := 9) (by decide) (by decide) (by decide) (.inl (by decide))
  · obtain rfl := eq_of_beq hfeed
    exact .short (v := 10) (by decide) (by decide) (by decide) (.inl (by decide))
  · obtain rfl := eq_of_beq hreturn
    exact .short (v := 13) (by decide) (by decide) (by decide) (.inl (by decide))
  all_goals
    rw [beq_iff_eq] at hquote hslash htab hfeed hreturn
    have hnone : c ∉ ['"', '\\', '\t', '\n', '\r'] := by
      simp [hquote, hslash, htab, hfeed, hreturn]
  · have hhidden : Text.isPrintable c = false := by
      rw [beq_iff_eq] at hnull
      rw [Text.isPrintable, hnull]
      rfl
    exact .null (not_or.mpr ⟨hnone, by rw [hhidden]; exact Bool.false_ne_true⟩)
  · exact .shown hquote hslash (by simp [isLineEnd, hfeed, hreturn]) (.inr hshown)
  · exact .braced _ (not_or.mpr ⟨hnone, hshown⟩)

/-- What a character of a text is written as is read as that character or not at all. -/
theorem pieces_quotedChar_iff (c : Char) (rest : List Char) (us : List Nat) :
    Pieces '"' (Text.quotedChar c ++ rest) us ↔
      Spellable c ∧ ∃ more, us = units c ++ more ∧ Pieces '"' rest more := by
  have hquoting := quoting_quotedChar c
  generalize Text.quotedChar c = written at hquoting ⊢
  cases hquoting with
  | short hv he hunits hc =>
    rw [List.cons_append, List.cons_append, List.nil_append, pieces_short_iff he, hunits]
    constructor
    · rintro ⟨w, more, hw, rfl, hrest⟩
      obtain rfl := short_unique hv hw
      exact ⟨hc, more, rfl, hrest⟩
    · rintro ⟨_, more, rfl, hrest⟩
      exact ⟨_, more, hv, rfl, hrest⟩
  | shown hquote hslash hend hc =>
    rw [List.singleton_append, pieces_shown_iff hslash]
    constructor
    · rintro ⟨_, _, hrest⟩
      exact ⟨hc, hrest⟩
    · rintro ⟨_, hrest⟩
      exact ⟨hquote, hend, hrest⟩
  | null hc =>
    rw [List.cons_append, List.cons_append, List.nil_append, pieces_short_iff (by decide)]
    constructor
    · rintro ⟨v, more, hv, _⟩
      simp [shortEscapes] at hv
    · rintro ⟨hc', _⟩
      exact absurd hc' hc
  | braced ds hc =>
    constructor
    · intro h
      exact absurd h not_pieces_braced
    · rintro ⟨hc', _⟩
      exact absurd hc' hc

theorem pieces_quoted_iff (cs : List Char) (us : List Nat) :
    Pieces '"' (cs.flatMap Text.quotedChar) us ↔
      us = cs.flatMap units ∧ ∀ c ∈ cs, Spellable c := by
  induction cs generalizing us with
  | nil =>
    constructor
    · intro h
      obtain ⟨_, rfl⟩ | ⟨p, r, vs, ws, hcs, _, hp, _⟩ := h.inv
      · exact ⟨rfl, List.forall_mem_nil _⟩
      · rw [List.flatMap_nil, List.nil_eq, List.append_eq_nil_iff] at hcs
        obtain ⟨rfl, _⟩ := hcs
        cases hp
    · rintro ⟨rfl, _⟩
      exact .nil
  | cons c cs ih =>
    rw [List.flatMap_cons, pieces_quotedChar_iff, List.flatMap_cons, List.forall_mem_cons]
    constructor
    · rintro ⟨hc, more, rfl, hrest⟩
      obtain ⟨rfl, hcs⟩ := (ih more).mp hrest
      exact ⟨rfl, hc, hcs⟩
    · rintro ⟨rfl, hc, hcs⟩
      exact ⟨hc, _, rfl, (ih _).mpr ⟨rfl, hcs⟩⟩

theorem isText_quoted_iff (s : String) (us : List Nat) : IsText (Text.quoted s) us ↔
    us = s.toList.flatMap units ∧ ∀ c ∈ s.toList, Spellable c := by
  rw [← pieces_quoted_iff, IsText, Text.quoted, String.toList_ofList]
  constructor
  · rintro ⟨body, hbody, hpieces⟩
    rw [List.append_cancel_right (List.cons.inj hbody).2]
    exact hpieces
  · intro h
    exact ⟨_, rfl, h⟩

end Texts

section Chars

/-- One more digit of room takes the last digit. -/
theorem hexPadded_succ {width : Nat} (hw : 0 < width) (n : Nat) :
    Text.hexPadded (width + 1) n =
      Text.hexPadded width (n / 16) ++ [Nat.digitChar (n % 16)] := by
  rw [Text.hexPadded, Text.hexPadded, Text.hex, Text.hex]
  by_cases hn : n < 16
  · have hzero : n / 16 = 0 := Nat.div_eq_of_lt hn
    obtain ⟨w, rfl⟩ : ∃ w, width = w + 1 := ⟨width - 1, by omega⟩
    rw [hzero, Nat.mod_eq_of_lt hn, Nat.toDigits_of_lt_base hn, Nat.toDigits_of_lt_base (by decide)]
    simp [List.replicate_succ']
  · have hlength := congrArg List.length (Nat.toDigits_of_base_le (by decide) (Nat.le_of_not_lt hn))
    rw [List.length_append, List.length_singleton] at hlength
    rw [hlength, Nat.add_sub_add_right, Nat.toDigits_of_base_le (by decide) (Nat.le_of_not_lt hn),
      List.append_assoc]

theorem hexDigit?_digitChar {d : Nat} (h : d < 16) : Json.hexDigit? (Nat.digitChar d) = some d := by
  have hall : ∀ d : Fin 16, Json.hexDigit? (Nat.digitChar d) = some d.val := by decide
  exact hall ⟨d, h⟩

/-- Four digits are enough for a unit. -/
theorem piece_hexPadded {quote : Char} {n : Nat} (h : n < 0x10000) :
    Piece quote ('\\' :: 'u' :: Text.hexPadded 4 n) [n] := by
  have hfirst : Text.hexPadded 1 (n / 16 / 16 / 16) = [Nat.digitChar (n / 16 / 16 / 16)] := by
    rw [Text.hexPadded, Text.hex, Nat.toDigits_of_lt_base (by omega)]
    rfl
  rw [hexPadded_succ (by decide), hexPadded_succ (by decide), hexPadded_succ (by decide), hfirst]
  refine .unit ?_
  have hdigit : ∀ m, Json.hexDigit? (Nat.digitChar (m % 16)) = some (m % 16) :=
    fun m => hexDigit?_digitChar (Nat.mod_lt m (by decide))
  have htop : n / 16 / 16 / 16 < 16 := by omega
  simp only [Json.readUnit, hdigit, hexDigit?_digitChar htop, Option.bind_eq_bind, Option.bind_some,
    Option.pure_def, Option.some.injEq, Prod.mk.injEq, and_true]
  omega

theorem piece_singleton_iff {quote c : Char} {us : List Nat} : Piece quote [c] us ↔
    c ≠ quote ∧ c ≠ '\\' ∧ isLineEnd c = false ∧ us = units c := by
  constructor
  · intro h
    cases h with
    | shown hquote hslash hend => exact ⟨hquote, hslash, hend, rfl⟩
  · rintro ⟨hquote, hslash, hend, rfl⟩
    exact .shown hquote hslash hend

/-- An escape has one reading. -/
theorem piece_hexPadded_iff {quote : Char} {n u : Nat} (h : n < 0x10000) :
    Piece quote ('\\' :: 'u' :: Text.hexPadded 4 n) [u] ↔ u = n := by
  have hpiece : Piece quote ('\\' :: 'u' :: Text.hexPadded 4 n) [n] := piece_hexPadded h
  constructor
  · intro hu
    generalize Text.hexPadded 4 n = ds at hpiece hu
    cases hpiece with
    | short hv => simp [shortEscapes] at hv
    | unit hn =>
      cases hu with
      | unit hu => exact (Prod.mk.inj (Option.some.inj (hu.symm.trans hn))).1
  · rintro rfl
    exact hpiece

theorem isChar_iff (body : List Char) {literal : String} {u : Nat}
    (h : literal.toList = '\'' :: (body ++ ['\''])) : IsChar literal u ↔ Piece '\'' body [u] := by
  constructor
  · rintro ⟨body', h', hpiece⟩
    rw [h] at h'
    rw [List.append_cancel_right (List.cons.inj h').2]
    exact hpiece
  · intro hpiece
    exact ⟨body, h, hpiece⟩

theorem isLineEnd_of_shown {c : Char} (h : Constant.isControl c = false) : isLineEnd c = false := by
  rw [isLineEnd, Bool.or_eq_false_iff, beq_eq_false_iff_ne, beq_eq_false_iff_ne]
  constructor <;> rintro rfl <;> exact absurd h (by decide)

theorem isChar_charLiteral_iff {v : Int32} {n u : Nat} (hv : v.toUInt32.toNat = n)
    (hn : n < 0x10000) : IsChar (Constant.charLiteral v) u ↔ u = n ∧ n ≠ 39 ∧ n ≠ 92 := by
  rw [Constant.charLiteral, hv]
  split
  · next hshown =>
    rw [Bool.and_eq_true, decide_eq_true_eq, Bool.not_eq_true'] at hshown
    obtain ⟨hcode, hcontrol⟩ := hshown
    have hunits : units (Char.ofNat n) = [n] := by
      rw [units, if_pos (hcode ▸ hn), ← hcode]
    have hquote : Char.ofNat n = '\'' ↔ n = 39 := by
      rw [← Char.toNat_inj, ← hcode]
      rfl
    have hslash : Char.ofNat n = '\\' ↔ n = 92 := by
      rw [← Char.toNat_inj, ← hcode]
      rfl
    rw [isChar_iff [Char.ofNat n] (by simp), piece_singleton_iff, hunits,
      List.singleton_inj, ne_eq, hquote, ne_eq, hslash]
    constructor
    · rintro ⟨hnotQuote, hnotSlash, _, rfl⟩
      exact ⟨rfl, hnotQuote, hnotSlash⟩
    · rintro ⟨rfl, hnotQuote, hnotSlash⟩
      exact ⟨hnotQuote, hnotSlash, isLineEnd_of_shown hcontrol, rfl⟩
  · next hhidden =>
    -- Neither the quote nor the backslash is written as an escape.
    have hother : n ≠ 39 ∧ n ≠ 92 := by
      constructor <;> rintro rfl <;> exact hhidden (by decide)
    rw [isChar_iff ('\\' :: 'u' :: Text.hexPadded 4 n) (by simp), piece_hexPadded_iff hn]
    simp [hother]

end Chars

/-- The literal of a character is read as its value, except that those of the quote and of the
backslash are no literals. The literal of a text is read as the text if all its characters are shown
or have an escape of their own, and otherwise it is none. Nothing is ever read as another value. -/
theorem literal_denotes_iff (v : Int32) (hlow : 0 ≤ v) (hhigh : v ≤ 0xFFFF) (s : String)
    (kind : Option Primitive) :
    (∀ u : Nat, IsChar ((Constant.int v).literal (some .char)) u ↔
      (u : Int) = v.toInt ∧ v ≠ 39 ∧ v ≠ 92) ∧
    ∀ us, IsText ((Constant.text s).literal kind) us ↔
      us = s.toList.flatMap units ∧ ∀ c ∈ s.toList, Spellable c := by
  refine ⟨fun u => ?_, isText_quoted_iff s⟩
  have hcode : v.toUInt32.toNat = v.toInt.toNat := Int32.toNat_toUInt32_of_le hlow
  rw [Int32.le_iff_toInt_le] at hlow hhigh
  have hzero : (0 : Int32).toInt = 0 := by decide
  have hlast : (0xFFFF : Int32).toInt = 0xFFFF := by decide
  have hquote : (39 : Int32).toInt = 39 := by decide
  have hslash : (92 : Int32).toInt = 92 := by decide
  rw [Constant.literal, isChar_charLiteral_iff hcode (by omega), ne_eq, ne_eq, ne_eq, ne_eq,
    ← Int32.toInt_inj (x := v), ← Int32.toInt_inj (x := v), hquote, hslash]
  omega

/-- Half of a surrogate pair is read back, and so is a text with a quote, a tab and a letter. -/
theorem literals_read_back :
    ((0 : Int32) ≤ 0xD800 ∧ (0xD800 : Int32) ≤ 0xFFFF) ∧
      IsChar "'\\ud800'" 0xD800 ∧ IsText "\"\\\"\\té\"" [34, 9, 233] := by
  have hlow : (0 : Int32) ≤ 0xD800 := by decide
  have hhigh : (0xD800 : Int32) ≤ 0xFFFF := by decide
  obtain ⟨hchar, htext⟩ := literal_denotes_iff 0xD800 hlow hhigh "\"\té" none
  have hwritten : (Constant.int 0xD800).literal (some .char) = "'\\ud800'" := by decide +kernel
  have hquoted : (Constant.text "\"\té").literal none = "\"\\\"\\té\"" := by decide +kernel
  have hspellable : ∀ c ∈ "\"\té".toList, Spellable c := by
    have hcs : "\"\té".toList = ['"', '\t', 'é'] := by decide +kernel
    rw [hcs, List.forall_mem_cons, List.forall_mem_cons, List.forall_mem_singleton]
    exact ⟨.inl (by decide), .inl (by decide), .inr (by decide +kernel)⟩
  rw [hwritten] at hchar
  rw [hquoted] at htext
  exact ⟨⟨hlow, hhigh⟩, (hchar 0xD800).mpr ⟨by decide, by decide, by decide⟩,
    (htext _).mpr ⟨by decide +kernel, hspellable⟩⟩

/-- The quote is written as three quotes, and a control character in a text with braces. -/
theorem quote_and_control_unreadable :
    (Constant.int 39).literal (some .char) = "'''" ∧ (∀ u, ¬ IsChar "'''" u) ∧
      (Constant.text "\x01").literal none = "\"\\u\x7b1\x7d\"" ∧
      ∀ us, ¬ IsText "\"\\u\x7b1\x7d\"" us := by
  have hquote : (Constant.int 39).literal (some .char) = "'''" := by decide +kernel
  have hcontrol : (Constant.text "\x01").literal none = "\"\\u\x7b1\x7d\"" := by decide +kernel
  refine ⟨hquote, fun u hu => ?_, hcontrol, fun us hus => ?_⟩
  · rw [← hquote] at hu
    exact ((isChar_charLiteral_iff (by decide) (by decide)).mp hu).2.1 rfl
  · rw [← hcontrol] at hus
    have hhidden : ¬ Spellable '\x01' := not_or.mpr ⟨by decide, by decide⟩
    exact hhidden (((isText_quoted_iff _ _).mp hus).2 _ (by decide +kernel))

end Literal

end ClassSketch
