import ClassSketch.Sketch.Draft
import Mathlib.Data.List.Basic

/-! Cuts at byte positions. A text is cut where another text ends that it starts with, or at a
character that was found in it, so every cut falls between two characters. -/

namespace ClassSketch

namespace Text

theorem utf8ByteSize_ofList_cons (c : Char) (cs : List Char) :
    (String.ofList (c :: cs)).utf8ByteSize = c.utf8Size + (String.ofList cs).utf8ByteSize := by
  rw [String.ofList_cons, String.utf8ByteSize_append, String.utf8ByteSize_singleton]

theorem cutAt?_zero (cs : List Char) : cutAt? 0 cs = some ([], cs) := by
  cases cs <;> rfl

theorem cutAt?_append (before after : List Char) :
    cutAt? (String.ofList before).utf8ByteSize (before ++ after) = some (before, after) := by
  induction before with
  | nil =>
    rw [String.ofList_nil, String.utf8ByteSize_empty, List.nil_append]
    exact cutAt?_zero after
  | cons c cs ih =>
    have hpos := c.utf8Size_pos
    have hsize := utf8ByteSize_ofList_cons c cs
    obtain ⟨n, hn⟩ : ∃ n, (String.ofList (c :: cs)).utf8ByteSize = n + 1 :=
      ⟨(String.ofList (c :: cs)).utf8ByteSize - 1, by omega⟩
    have hle : c.utf8Size ≤ n + 1 := by omega
    have hrest : n + 1 - c.utf8Size = (String.ofList cs).utf8ByteSize := by omega
    rw [hn, List.cons_append, cutAt?, if_pos hle, hrest, ih]
    rfl

theorem cutAt?_size (s : String) (after : List Char) :
    cutAt? s.utf8ByteSize (s.toList ++ after) = some (s.toList, after) := by
  have hcut := cutAt?_append s.toList after
  rwa [String.ofList_toList] at hcut

namespace Buffer

theorem truncate?_append (b : Buffer) (s : String) : (b.append s).truncate? b.size = some b := by
  rw [truncate?]
  split
  · next hle =>
    have hsize : (b.append s).size = b.size + s.utf8ByteSize := String.utf8ByteSize_append
    have hempty : s = "" := String.utf8ByteSize_eq_zero_iff.mp (by omega)
    rw [hempty, append, String.append_empty]
  · have htext : (b.append s).text.toList = b.text.toList ++ s.toList := String.toList_append
    rw [htext, size, cutAt?_size, Option.map_some]
    dsimp only
    rw [String.ofList_toList]
    rfl

end Buffer

end Text

/-- Text of any number of lines, which are counted from where it starts in the buffer. -/
def Draft.appendText? (s : String) (d : Draft) : Option Draft := do
  let buffer := d.buffer.append s
  let (_, added) ← Text.cutAt? d.buffer.size buffer.text.toList
  let lines := Text.countLines buffer.layout.separator (String.ofList added)
  return { d with buffer, line := d.line + lines }

theorem Draft.appendText?_eq (s : String) (d : Draft) : d.appendText? s = some (d.appendText s) := by
  have htext : (d.buffer.append s).text.toList = d.buffer.text.toList ++ s.toList :=
    String.toList_append
  rw [appendText?, htext, Text.Buffer.size, Text.cutAt?_size]
  simp only [Option.bind_eq_bind, Option.bind_some, String.ofList_toList]
  rfl

namespace Name

open Text

section Parts

variable {c : Char} {before after : List Char}

theorem forall_bne {cs : List Char} (h : c ∉ cs) : ∀ d ∈ cs, (d != c) = true := by
  intro d hd
  rw [bne_iff_ne]
  rintro rfl
  exact h hd

theorem takeWhile_all (h : c ∉ before) : before.takeWhile (· != c) = before := by
  have hall : (before ++ []).takeWhile (· != c) = before ++ [].takeWhile (· != c) :=
    List.takeWhile_append_of_pos (forall_bne h)
  rwa [List.append_nil, List.takeWhile_nil, List.append_nil] at hall

theorem afterLast_of_not_mem (h : c ∉ after) : afterLast c after = after := by
  rw [afterLast, takeWhile_all (by simpa using h), List.reverse_reverse]

end Parts

end Name

end ClassSketch
