import ClassSketch.Proofs.Offsets

/-! Methods as blocks of lines. A method that is written with a body stands in the file as its head,
the lines of the body and a closing brace, and the lines that its offsets are mapped to are counted
from the head. They stay inside of the block, with one exception: the lines of a blank body are
counted for the offsets although they are not written. -/

namespace ClassSketch

open Text (LineAt Closed newlines)

namespace Text

/-- The text is the last of line `n`, counted from zero. -/
def EndsLine (text : String) (n : Nat) (s : String) : Prop :=
  ∃ before after, text = before ++ (s ++ "\n" ++ after) ∧ newlines before = n

variable {text s : String} {n : Nat}

theorem EndsLine.append (h : EndsLine text n s) (t : String) : EndsLine (text ++ t) n s := by
  obtain ⟨before, after, rfl, hn⟩ := h
  exact ⟨before, after ++ t, by simp only [String.append_assoc], hn⟩

theorem EndsLine.prepend (h : EndsLine text n s) (t : String) :
    EndsLine (t ++ text) (newlines t + n) s := by
  obtain ⟨before, after, rfl, hn⟩ := h
  refine ⟨t ++ before, after, by simp only [String.append_assoc], ?_⟩
  rw [newlines_append, hn]

theorem endsWith_lineFeed (r : String) : endsWith "\n" (r ++ "\n") = true := by
  rw [endsWith, List.isSuffixOf_iff_suffix, String.toList_append]
  exact List.suffix_append _ _

end Text

/-- Whole lines are filled in as they are, unless they are blank. -/
theorem MethodSketch.text_filled {d : Draft} (hd : d.buffer.layout.separator = "\n") {text : String}
    (htext : Closed text) : (filled text d).buffer.text =
      d.buffer.text ++ if Text.isBlankText text then "" else text := by
  rw [filled]
  split
  · exact (String.append_empty).symm
  · next hblank =>
    rcases htext with rfl | ⟨r, rfl⟩
    · exact absurd rfl hblank
    · rw [writeBody, hd, Text.endsWith_lineFeed]
      rfl

/-- What is read of a method was counted. -/
theorem LineMap.counted?_of_find?_tables {m : LineMap} {name key : String}
    {methods : Table String OffsetTable} {table : OffsetTable}
    (hclass : m.tables.find? name = some methods) (hmethod : methods.find? key = some table) :
    ∃ counted, m.counted? (name, key) = some counted ∧ table = m.shifted counted := by
  rw [tables, Table.find?_mapValues] at hclass
  obtain ⟨methods, hfound, rfl⟩ := Option.map_eq_some_iff.mp hclass
  rw [Table.find?_mapValues] at hmethod
  obtain ⟨counted, hcounted, rfl⟩ := Option.map_eq_some_iff.mp hmethod
  exact ⟨counted, Option.bind_eq_some_iff.mpr ⟨methods, hfound, hcounted⟩, rfl⟩

namespace PreparedBodies

variable {σ : Type} (p : PreparedBodies) (o : Options)

/-- The source of a body. One that is missing is empty. -/
def source (v : Visit) : String := (p.bodies.lookup (v.method.fullKey v.node.decl)).getD ""

def bodyText (v : Visit) : String := (p.render (v.site o) {}).1.text

/-- The method becomes part of the file, and has a body. -/
structure Shows (v : Visit) : Prop where
  hasBody : v.hasBody (p.kit o σ) = true
  written : MethodSketch.fate (p.kit o σ) v (some (p.bodyText o v)) = .written

/-- The lines of a body that become part of the file: all of them or, of a blank body, none. -/
def shownLines (v : Visit) : List String :=
  if Text.isBlankText (p.bodyText o v) then [] else Text.lines (p.source v)

/-- The line of the closing brace of a method with its head on line `h`. -/
def closingLine (v : Visit) (h : Nat) : Nat := h + 1 + (p.shownLines o v).length

/-- The offset belongs to line `i` of the body: the line table has it there for the first time. -/
def Marks (v : Visit) (i offset : Nat) : Prop :=
  i < (Text.lines (p.source v)).length ∧ ∃ e, v.method.lineTable[i]? = some e ∧
    e.startPc.toNat = offset ∧ ∀ d ∈ v.method.lineTable.take i, d.startPc ≠ e.startPc

/-- A blank body with an offset on another line than its first. -/
def Overshoots (v : Visit) : Prop :=
  Text.isBlankText (p.bodyText o v) = true ∧ ∃ i offset, 0 < i ∧ p.Marks v i offset

/-- The method stands in a text as a block of lines from line `h` on. -/
structure Stands (v : Visit) (text : String) (h : Nat) : Prop where
  head : ∃ head, v.Headed .oneLine (p.kit o σ) head ∧
    Text.EndsLine text h (o.layout.indentText v.level ++ (head ++ " \x7b"))
  body : ∀ i line, (p.shownLines o v)[i]? = some line →
    LineAt text (h + 1 + i) (o.layout.indentText (v.level + 1) ++ line)
  brace : LineAt text (p.closingLine o v h) (o.layout.indentText v.level ++ "\x7d")

/-- The text of a method with the given head. -/
def block (v : Visit) (head : String) : String :=
  o.layout.indentText v.level ++ (head ++ " \x7b") ++ "\n" ++
    ((if Text.isBlankText (p.bodyText o v) then "" else p.bodyText o v) ++
      (o.layout.indentText v.level ++ "\x7d" ++ "\n"))

variable {p o} {v : Visit} {text : String} {h : Nat}

theorem not_shows_of_bodiless (h : v.hasBody (p.kit o σ) = false) : ¬ p.Shows (σ := σ) o v := by
  intro hshows
  have htrue := hshows.hasBody
  rw [h] at htrue
  cases htrue

theorem not_shows_of_hidden
    (h : MethodSketch.fate (p.kit o σ) v (some (p.bodyText o v)) = .hidden) :
    ¬ p.Shows (σ := σ) o v := by
  intro hshows
  have hwritten := hshows.written
  rw [h] at hwritten
  cases hwritten

/-- A prepared body does not fail. -/
theorem shows_of_not_hidden (hbody : v.hasBody (p.kit o σ) = true)
    (hne : MethodSketch.fate (p.kit o σ) v (some (p.bodyText o v)) ≠ .hidden) :
    p.Shows (σ := σ) o v := by
  refine ⟨hbody, ?_⟩
  rw [MethodSketch.fate] at hne ⊢
  split_ifs at hne ⊢ <;> first | rfl | exact absurd rfl hne

theorem Stands.append (hv : p.Stands (σ := σ) o v text h) (s : String) :
    p.Stands (σ := σ) o v (text ++ s) h := by
  obtain ⟨head, hhead, hends⟩ := hv.head
  exact ⟨⟨head, hhead, hends.append s⟩, fun i line hi => (hv.body i line hi).append s,
    hv.brace.append s⟩

theorem Stands.prepend (hv : p.Stands (σ := σ) o v text h) {s : String} (hs : Closed s) :
    p.Stands (σ := σ) o v (s ++ text) (newlines s + h) := by
  obtain ⟨head, hhead, hends⟩ := hv.head
  refine ⟨⟨head, hhead, hends.prepend s⟩, fun i line hi => ?_, ?_⟩
  · have hat := (hv.body i line hi).prepend hs
    rwa [← Nat.add_assoc, ← Nat.add_assoc] at hat
  · have hat := hv.brace.prepend hs
    rw [closingLine] at hat ⊢
    rwa [← Nat.add_assoc, ← Nat.add_assoc] at hat

/-- A missing body is laid out as an empty one. -/
theorem render_eq_layOut (v : Visit) (t : Trace) :
    p.render (v.site o) t =
      let out := layOut (v.site o) (Text.lines (p.source v)) v.method.lineTable t
      ({ text := out.1 }, out.2) := by
  have hkey : (v.site o).method.fullKey (v.site o).decl = v.method.fullKey v.node.decl := rfl
  rw [render, source, hkey]
  cases p.bodies.lookup (v.method.fullKey v.node.decl) <;> rfl

/-- The offsets of a body that starts on a line are mapped to its lines, counted from there. -/
theorem find?_render (v : Visit) (line offset n : Nat) :
    (p.render (v.site o) ⟨line, [], v.method.lineTable⟩).2.offsets.find? offset = some n ↔
      ∃ i, p.Marks v i offset ∧ n = line + i := by
  have hempty : Table.Ascending ([] : OffsetTable) := List.Pairwise.nil
  rw [render_eq_layOut]
  constructor
  · intro hn
    rcases entry_of_find?_layOut (t := ⟨line, [], v.method.lineTable⟩) hempty hn with
      hnone | ⟨_, i, e, hi, he, heq, hfirst, hline⟩
    · cases hnone
    · exact ⟨i, ⟨hi, e, he, heq, hfirst⟩, hline⟩
  · rintro ⟨i, ⟨hi, e, he, rfl, hfirst⟩, rfl⟩
    exact (offsets_layOut (v.site o) _ _ (t := ⟨line, [], v.method.lineTable⟩) hempty).2 i e hi he
      hfirst rfl

theorem bodyText_eq_layOut (v : Visit) : p.bodyText o v =
    (layOut (v.site o) (Text.lines (p.source v)) v.method.lineTable {}).1 := by
  rw [bodyText, render_eq_layOut]

/-- Below any text, a method stands as a block. -/
theorem stands_block (hl : o.layout.LineFed) {head : String}
    (hhead : v.Headed .oneLine (p.kit o σ) head) (before : String) :
    p.Stands (σ := σ) o v (before ++ p.block o v head) (newlines before) := by
  have hsite : (v.site o).layout.LineFed := hl
  have hone : ∀ line ∈ Text.lines (p.source v), OneLine line :=
    fun _ h => Text.oneLine_of_mem_lines h
  have hopen : newlines (o.layout.indentText v.level ++ (head ++ " \x7b") ++ "\n") = 1 := by
    have hindent : newlines (o.layout.indentText v.level) = 0 :=
      Text.newlines_eq_zero_iff.mpr (Text.within_indentText hl.indent v.level)
    have hzero : newlines head = 0 := Text.newlines_eq_zero_iff.mpr hhead.within
    rw [Text.newlines_append, Text.newlines_append, Text.newlines_append, hindent, hzero]
    rfl
  -- Where the body starts, and where the closing brace does.
  let top := before ++ (o.layout.indentText v.level ++ (head ++ " \x7b") ++ "\n")
  have htop : Closed top := .inr ⟨before ++ (o.layout.indentText v.level ++ (head ++ " \x7b")),
    by simp only [top, String.append_assoc]⟩
  have htopLines : newlines top = newlines before + 1 := by
    rw [Text.newlines_append, hopen]
  obtain ⟨hcount, hclosed⟩ := newlines_layOut hsite hone v.method.lineTable {}
  rw [← bodyText_eq_layOut] at hcount hclosed
  refine ⟨⟨head, hhead, before, _, rfl, rfl⟩, fun i line hi => ?_, ?_⟩
  · rw [shownLines] at hi
    split at hi
    · cases hi
    · next hblank =>
      have hat := lineAt_layOut hsite hone v.method.lineTable {} hi
      rw [← bodyText_eq_layOut] at hat
      have hbelow := (hat.prepend htop).append (o.layout.indentText v.level ++ "\x7d" ++ "\n")
      rw [htopLines] at hbelow
      rw [block, if_neg hblank]
      simpa only [top, lineText, Visit.site, String.append_assoc] using hbelow
  · have hbody : newlines (if Text.isBlankText (p.bodyText o v) then "" else p.bodyText o v) =
        (p.shownLines o v).length ∧
        Closed (if Text.isBlankText (p.bodyText o v) then "" else p.bodyText o v) := by
      rw [shownLines]
      split
      · exact ⟨rfl, .inl rfl⟩
      · exact ⟨hcount, hclosed⟩
    rw [block]
    generalize (if Text.isBlankText (p.bodyText o v) then "" else p.bodyText o v) = shown at hbody ⊢
    refine ⟨top ++ shown, "", ?_, ?_, htop.append hbody.2⟩
    · simp only [top, String.append_assoc, String.append_empty]
    · rw [Text.newlines_append, htopLines, hbody.1, closingLine]

/-- The lines that the offsets of a method are mapped to are below its head, and not below its
closing brace unless it overshoots. -/
theorem Marks.inside {i offset : Nat} (hi : p.Marks v i offset) (h : Nat) :
    h < h + 1 + i ∧ (h + 1 + i ≤ p.closingLine o v h ∨ p.Overshoots o v) := by
  refine ⟨by omega, ?_⟩
  rw [closingLine, shownLines]
  split
  · next hblank =>
    cases i with
    | zero => exact .inl (Nat.le_refl _)
    | succ i => exact .inr ⟨hblank, i + 1, offset, Nat.succ_pos i, hi⟩
  · have := hi.1
    exact .inl (by omega)

theorem Overshoots.past (hv : p.Overshoots o v) (h : Nat) :
    ∃ i offset, p.Marks v i offset ∧ p.closingLine o v h < h + 1 + i := by
  obtain ⟨hblank, i, offset, hpos, hi⟩ := hv
  refine ⟨i, offset, hi, ?_⟩
  rw [closingLine, shownLines, if_pos hblank, List.length_nil]
  omega

/-- What holds of a draft after some visits: each method that was written stands in the text and has
a table, and all that is in the tables is counted from such methods. -/
structure Located (p : PreparedBodies) (o : Options) (σ : Type) (done : List Visit) (d : Draft) :
    Prop where
  counted : d.Counted o.layout True
  unshifted : d.lineMap.shift = 0
  ordered : d.lineMap.Ordered
  ascending : ∀ key table, d.lineMap.counted? key = some table → table.Ascending
  filed : ∀ key, d.lineMap.counted? key ≠ none → key ∈ done.map Visit.key
  standing : ∀ v ∈ done, p.Shows (σ := σ) o v → ∃ h table,
    p.Stands (σ := σ) o v d.buffer.text h ∧ d.lineMap.counted? v.key = some table ∧
      ((done.map Visit.key).count v.key = 1 → ∀ offset line, table.find? offset = some line ↔
        ∃ i, p.Marks v i offset ∧ line = h + 1 + i)
  traced : ∀ key table offset line, d.lineMap.counted? key = some table →
    table.find? offset = some line → ∃ v ∈ done, p.Shows (σ := σ) o v ∧ v.key = key ∧
      ∃ h i, p.Stands (σ := σ) o v d.buffer.text h ∧ p.Marks v i offset ∧ line = h + 1 + i

namespace Located

variable {done : List Visit} {d d' : Draft}

theorem empty (root : String) : Located p o σ [] (.ofRoot root o.layout) :=
  { counted := ⟨rfl, Nat.le_refl 0, fun _ => rfl⟩
    unshifted := rfl
    ordered := ⟨List.Pairwise.nil, fun _ _ h => by cases h⟩
    ascending := fun _ _ h => by cases h
    filed := fun _ h => absurd rfl h
    standing := fun _ h => by cases h
    traced := fun _ _ _ _ h => by cases h }

theorem extend (hd : Located p o σ done d) (hcounted : d'.Counted o.layout True)
    (hmap : d'.lineMap = d.lineMap) {s : String} (htext : d'.buffer.text = d.buffer.text ++ s) :
    Located p o σ done d' := by
  refine ⟨hcounted, hmap ▸ hd.unshifted, hmap ▸ hd.ordered, hmap ▸ hd.ascending, hmap ▸ hd.filed,
    fun v hv hshows => ?_, fun key table offset line htable hline => ?_⟩
  · obtain ⟨h, table, hstands, htable, hexact⟩ := hd.standing v hv hshows
    rw [htext, hmap]
    exact ⟨h, table, hstands.append s, htable, hexact⟩
  · rw [hmap] at htable
    obtain ⟨v, hv, hshows, hkey, h, i, hstands, hmark⟩ :=
      hd.traced key table offset line htable hline
    rw [htext]
    exact ⟨v, hv, hshows, hkey, h, i, hstands.append s, hmark⟩

/-- A method that is not written leaves the draft as it was. -/
theorem skip (hd : Located p o σ done d) (hv : ¬ p.Shows (σ := σ) o v) :
    Located p o σ (done ++ [v]) d := by
  refine ⟨hd.counted, hd.unshifted, hd.ordered, hd.ascending, fun key hkey => ?_,
    fun u hu hshows => ?_, fun key table offset line htable hline => ?_⟩
  · rw [List.map_append]
    exact List.mem_append_left _ (hd.filed key hkey)
  · rcases List.mem_append.mp hu with hu | hu
    · obtain ⟨h, table, hstands, htable, hexact⟩ := hd.standing u hu hshows
      refine ⟨h, table, hstands, htable, fun hcount => hexact ?_⟩
      rw [List.map_append, List.count_append] at hcount
      have := List.count_pos_iff.mpr (List.mem_map_of_mem (f := Visit.key) hu)
      omega
    · obtain rfl := List.mem_singleton.mp hu
      exact absurd hshows hv
  · obtain ⟨u, hu, hrest⟩ := hd.traced key table offset line htable hline
    exact ⟨u, List.mem_append_left _ hu, hrest⟩

/-- The text of a method that is written, from the draft before its head. -/
theorem text_settle (hl : o.layout.LineFed) (hd : d.Counted o.layout True) {head : String}
    (hhead : OneLine head) {r : MethodSketch.Rendered} (hr : r.text = some (p.bodyText o v))
    (hne : MethodSketch.fate (p.kit o σ) v (some (p.bodyText o v)) ≠ .hidden) :
    (MethodSketch.settle (p.kit o σ) v r (d.writeLine v.level (head ++ " \x7b"))).buffer.text =
      d.buffer.text ++ p.block o v head := by
  have hopened := hd.writeOpening hl v.level fun _ => hhead
  have htop : (d.writeLine v.level (head ++ " \x7b")).buffer.text =
      d.buffer.text ++ (o.layout.indentText v.level ++ (head ++ " \x7b") ++ "\n") := by
    simp only [Draft.writeLine, Text.Buffer.appendLine, Text.Buffer.endLine,
      Text.Buffer.appendIndent, Text.Buffer.append, hd.layout, hl.separator, String.append_assoc]
  generalize d.writeLine v.level (head ++ " \x7b") = opened at hopened htop ⊢
  have hsite : (v.site o).layout.LineFed := hl
  have hclosed : Closed (p.bodyText o v) := by
    rw [bodyText_eq_layOut]
    exact (newlines_layOut hsite (fun _ h => Text.oneLine_of_mem_lines h) _ _).2
  have hfilled := MethodSketch.text_filled (d := opened) (by rw [hopened.layout, hl.separator])
    hclosed
  have hlayout := (hopened.filled hl (p.bodyText o v)).layout
  have hsettle : MethodSketch.settle (p.kit o σ) v r opened = MethodSketch.closed (p.kit o σ)
      (v.site o) r.trace v.level (MethodSketch.filled (p.bodyText o v) opened) := by
    rw [MethodSketch.settle, hr]
    exact if_neg hne
  rw [hsettle]
  generalize MethodSketch.filled (p.bodyText o v) opened = f at hfilled hlayout ⊢
  have hbrace : (MethodSketch.closed (p.kit o σ) (v.site o) r.trace v.level f).buffer.text =
      f.buffer.text ++ f.buffer.layout.indentText v.level ++ "\x7d" ++
        f.buffer.layout.separator := rfl
  rw [hbrace, hfilled, htop, hlayout, hl.separator, block]
  simp only [String.append_assoc]

/-- A method that was written below the text, and the offsets of which were filed. -/
theorem file (hd : Located p o σ done d) (hshows : p.Shows (σ := σ) o v)
    (hcounted : d'.Counted o.layout True) {s : String}
    (htext : d'.buffer.text = d.buffer.text ++ s)
    (hstands : p.Stands (σ := σ) o v d'.buffer.text h) {t : Trace}
    (hmap : d'.lineMap = d.lineMap.add v.node.decl.name v.method.key t)
    (ht : ∀ offset line, t.offsets.find? offset = some line ↔
      ∃ i, p.Marks v i offset ∧ line = h + 1 + i) : Located p o σ (done ++ [v]) d' := by
  have hfind := hd.ordered.counted?_add v.node.decl.name v.method.key t
  rw [← hmap] at hfind
  have hasc : Table.Ascending ((d.lineMap.counted? v.key).getD []) := by
    cases hold : d.lineMap.counted? v.key with
    | none => exact List.Pairwise.nil
    | some table => exact hd.ascending v.key table hold
  -- What the table of the method holds: what it held before, then the offsets of this body.
  have hnew : ∀ offset line,
      (((d.lineMap.counted? v.key).getD []).absorb t.offsets).find? offset = some line ↔
        ((d.lineMap.counted? v.key).getD []).find? offset = some line ∨
          ((d.lineMap.counted? v.key).getD []).find? offset = none ∧
            ∃ i, p.Marks v i offset ∧ line = h + 1 + i := by
    intro offset line
    rw [hasc.find?_absorb, ← ht, Option.or_eq_some_iff]
  refine ⟨hcounted, hmap ▸ hd.unshifted, hmap ▸ hd.ordered.add _ _ _, fun key table htable => ?_,
    fun key hkey => ?_, fun u hu hshown => ?_, fun key table offset line htable hline => ?_⟩
  · rw [hfind] at htable
    split at htable
    · next hkey =>
      obtain rfl := Option.some.inj htable
      subst hkey
      exact hasc.absorb _
    · exact hd.ascending key table htable
  · rw [List.map_append, List.mem_append]
    rw [hfind] at hkey
    split at hkey
    · next heq => exact .inr (List.mem_singleton.mpr heq)
    · exact .inl (hd.filed key hkey)
  · rw [List.map_append, List.count_append]
    rcases List.mem_append.mp hu with hu | hu
    · obtain ⟨h', table, hbefore, htable, hexact⟩ := hd.standing u hu hshown
      have hpos := List.count_pos_iff.mpr (List.mem_map_of_mem (f := Visit.key) hu)
      by_cases hkey : u.key = v.key
      · refine ⟨h', _, htext ▸ hbefore.append s, (hfind u.key).trans (if_pos hkey),
          fun hcount => ?_⟩
        have hone : [v.key].count u.key = 1 := by rw [hkey, List.count_singleton_self]
        change _ + [v.key].count u.key = 1 at hcount
        omega
      · refine ⟨h', table, htext ▸ hbefore.append s,
          (hfind u.key).trans ((if_neg hkey).trans htable), fun hcount => hexact ?_⟩
        omega
    · obtain rfl := List.mem_singleton.mp hu
      refine ⟨h, _, hstands, (hfind u.key).trans (if_pos rfl), fun hcount offset line => ?_⟩
      have hfresh : d.lineMap.counted? u.key = none := by
        by_contra hsome
        have hpos := List.count_pos_iff.mpr (hd.filed u.key hsome)
        have hone : [u.key].count u.key = 1 := List.count_singleton_self
        change _ + [u.key].count u.key = 1 at hcount
        omega
      rw [hnew, hfresh]
      exact ⟨fun hline => (hline.resolve_left fun hnone => by cases hnone).2,
        fun hline => .inr ⟨rfl, hline⟩⟩
  · have hkeep : ∀ key table, d.lineMap.counted? key = some table → table.find? offset = some line →
        ∃ u ∈ done ++ [v], p.Shows (σ := σ) o u ∧ u.key = key ∧ ∃ h i,
          p.Stands (σ := σ) o u d'.buffer.text h ∧ p.Marks u i offset ∧ line = h + 1 + i := by
      intro key table htable hline
      obtain ⟨u, hu, hshown, hkey, h, i, hbefore, hmark⟩ :=
        hd.traced key table offset line htable hline
      exact ⟨u, List.mem_append_left _ hu, hshown, hkey, h, i, htext ▸ hbefore.append s, hmark⟩
    rw [hfind] at htable
    split at htable
    · next hkey =>
      obtain rfl := Option.some.inj htable
      subst hkey
      rcases (hnew offset line).mp hline with hold | ⟨_, i, hmark⟩
      · cases hcount : d.lineMap.counted? v.key with
        | none =>
          rw [hcount] at hold
          cases hold
        | some table =>
          rw [hcount] at hold
          exact hkeep v.key table hcount hold
      · exact ⟨v, List.mem_append_right _ (List.mem_singleton_self v), hshows, rfl, h, i, hstands,
          hmark⟩
    · exact hkeep key table htable hline

theorem shown (hl : o.layout.LineFed) {head : String} (hhead : v.Headed .oneLine (p.kit o σ) head)
    (hbody : v.hasBody (p.kit o σ) = true) (memory : σ) (hd : Located p o σ done d)
    (hne : MethodSketch.fate (p.kit o σ) v (some (p.bodyText o v)) ≠ .hidden) :
    Located p o σ (done ++ [v])
      (MethodSketch.settle (p.kit o σ) v (MethodSketch.rendered (p.kit o σ) v
        (d.writeLine v.level (head ++ " \x7b")).line memory)
        (d.writeLine v.level (head ++ " \x7b"))) := by
  have hline : (d.writeLine v.level (head ++ " \x7b")).line = newlines d.buffer.text + 1 := by
    rw [← hd.counted.eq trivial]
    rfl
  have hopened := hd.counted.writeOpening hl v.level fun _ => hhead.within
  rw [rendered_kit, hline]
  have hr : (⟨some (p.render (v.site o) {}).1.text, (p.render (v.site o)
      ⟨newlines d.buffer.text + 1, [], v.method.lineTable⟩).2⟩ : MethodSketch.Rendered).text =
      some (p.bodyText o v) := rfl
  have htext := text_settle hl hd.counted hhead.within hr hne
  obtain ⟨_, t, ht, hmap⟩ := Charted.settle_kit v _ hr hne (d.writeLine v.level (head ++ " \x7b"))
  have hstands := stands_block hl hhead d.buffer.text
  rw [← htext] at hstands
  refine hd.file (shows_of_not_hidden hbody hne) (hopened.settle hl (p.kit o σ) v _) htext hstands
    hmap ?_
  rw [ht]
  exact find?_render v _

theorem carries (hl : o.layout.LineFed) :
    Carries .oneLine (p.kit o σ) (fun _ => True) (Located p o σ) where
  page hd hb hline hmap :=
    hd.extend (hd.counted.page hb hline) hmap (s := "") (by rw [hb, String.append_empty])
  draw _ hs hd := hd.extend (hd.counted.draw hl _ fun _ => hs) rfl rfl
  bodiless _ hbody hd := hd.skip (not_shows_of_bodiless hbody)
  hidden _ _ he hd := by
    rw [rendered_kit] at he
    exact hd.skip (not_shows_of_hidden he)
  shown memory _ hbody hhead hd hne := by
    rw [rendered_kit] at hne
    exact hd.shown hl hhead hbody memory hne

/-- In the finished file, everything is as far down as the draft is. -/
theorem finish (hl : o.layout.LineFed) (hd : Located p o σ done d) (c : ClassDecl) :
    (∀ v ∈ done, p.Shows (σ := σ) o v → ∃ h methods table,
      p.Stands (σ := σ) o v (d.finish o c).1 h ∧
      (d.finish o c).2.tables.find? v.node.decl.name = some methods ∧
      methods.find? v.method.key = some table ∧
      ((done.map Visit.key).count v.key = 1 → ∀ offset line, table.find? offset = some line ↔
        ∃ i, p.Marks v i offset ∧ line = h + 1 + i)) ∧
    ∀ name key methods table offset line, (d.finish o c).2.tables.find? name = some methods →
      methods.find? key = some table → table.find? offset = some line →
      ∃ v ∈ done, p.Shows (σ := σ) o v ∧ v.key = (name, key) ∧
        ∃ h i, p.Stands (σ := σ) o v (d.finish o c).1 h ∧ p.Marks v i offset ∧
          line = h + 1 + i := by
  obtain ⟨above, below, hclosed, htext, hmap⟩ := Draft.finish_parts hl hd.counted.layout c
  have hshifted : ∀ table, (d.lineMap.shiftBy (newlines above)).shifted table =
      table.mapValues (· + newlines above) := by
    intro table
    rw [LineMap.shifted, LineMap.shiftBy, hd.unshifted, Nat.zero_add]
  rw [htext, hmap]
  refine ⟨fun v hv hshows => ?_, fun name key methods table offset line hclass hmethod hline => ?_⟩
  · obtain ⟨h, table, hstands, htable, hexact⟩ := hd.standing v hv hshows
    obtain ⟨methods, hclass, hmethod⟩ := (d.lineMap.shiftBy (newlines above)).find?_tables htable
    refine ⟨_, methods, _, (hstands.prepend hclosed).append below, hclass, hmethod,
      fun hcount offset line => ?_⟩
    rw [hshifted, Table.find?_mapValues, Option.map_eq_some_iff]
    constructor
    · rintro ⟨n, hn, rfl⟩
      obtain ⟨i, hi, rfl⟩ := (hexact hcount offset n).mp hn
      exact ⟨i, hi, by omega⟩
    · rintro ⟨i, hi, rfl⟩
      exact ⟨h + 1 + i, (hexact hcount offset _).mpr ⟨i, hi, rfl⟩, by omega⟩
  · obtain ⟨counted, hcounted, rfl⟩ := LineMap.counted?_of_find?_tables hclass hmethod
    rw [hshifted, Table.find?_mapValues, Option.map_eq_some_iff] at hline
    obtain ⟨n, hn, rfl⟩ := hline
    obtain ⟨v, hv, hshows, hkey, h, i, hstands, hi, rfl⟩ :=
      hd.traced (name, key) counted offset n hcounted hn
    exact ⟨v, hv, hshows, hkey, _, i, (hstands.prepend hclosed).append below, hi, by omega⟩

end Located

/-- Whatever was written before, each method that is written with a body stands in the file of its
tree as a block. Every line in a table lies in the block of a method of that key, between its head
and its closing brace, or that method overshoots. A method that shares its key with no other keeps
all of its lines in its block if and only if it does not overshoot. -/
theorem mapped_lines_inside (o : Options) (hl : o.layout.LineFed) (p : PreparedBodies)
    (hp : ∀ e ∈ p.initializers, OneLine e.2) {l : Library} (hlib : l.Worded .oneLine)
    {policy : Renaming} (hpolicy : policy.Worded .oneLine) (memory : σ) (written : List String) :
    ∀ t ∈ ((Session.start (p.kit o σ) l memory policy).afterWrites written).forest.trees,
      ∀ n ∈ t.names, ∃ file s',
        ((Session.start (p.kit o σ) l memory policy).afterWrites written).write n =
          .ok (file, s') ∧
        (∀ v ∈ (p.kit o σ).fileVisits t, p.Shows (σ := σ) o v → ∃ h methods table,
          p.Stands (σ := σ) o v file.text h ∧
          file.tables.find? v.node.decl.name = some methods ∧
          methods.find? v.method.key = some table ∧
          ((((p.kit o σ).fileVisits t).map Visit.key).count v.key = 1 →
            (∀ offset line, table.find? offset = some line → h < line) ∧
            ((∀ offset line, table.find? offset = some line → line ≤ p.closingLine o v h) ↔
              ¬ p.Overshoots o v))) ∧
        ∀ name key methods table offset line, file.tables.find? name = some methods →
          methods.find? key = some table → table.find? offset = some line →
          ∃ v ∈ (p.kit o σ).fileVisits t, p.Shows (σ := σ) o v ∧ v.key = (name, key) ∧
            ∃ h, p.Stands (σ := σ) o v file.text h ∧ h < line ∧
              (line ≤ p.closingLine o v h ∨ p.Overshoots o v) := by
  intro t ht n hn
  have hk := worded_kit (σ := σ) hp o
  obtain ⟨hsourced, hkit⟩ :=
    (Session.sourced_start (k := p.kit o σ) hlib memory hpolicy).afterWrites written hk
  generalize (Session.start (p.kit o σ) l memory policy).afterWrites written = s
    at ht hsourced hkit ⊢
  have hkit : s.kit = p.kit o σ := hkit
  have hlocated := ((Located.carries hl).fileDraft hk
    (ClassTree.texts_sprouted (hsourced.stands t ht) (p.kit o σ).renderer) (fun _ _ => trivial)
    (Located.empty t.root.name) hsourced.genealogy).1
  refine ⟨_, _, Session.write_of_mem_names hsourced.distinct ht hn, ?_⟩
  rw [hkit, Workshop.text_writeFile, Workshop.tables_writeFile]
  generalize s.shop.fileDraft (p.kit o σ) t = out at hlocated ⊢
  obtain ⟨hstanding, htraced⟩ := hlocated.finish hl t.root.decl
  refine ⟨fun v hv hshows => ?_, fun name key methods table offset line hclass hmethod hline => ?_⟩
  · obtain ⟨h, methods, table, hstands, hclass, hmethod, hexact⟩ := hstanding v hv hshows
    refine ⟨h, methods, table, hstands, hclass, hmethod, fun hcount => ⟨?_, ?_⟩⟩
    · intro offset line hline
      obtain ⟨i, hi, rfl⟩ := (hexact hcount offset line).mp hline
      exact (hi.inside (o := o) h).1
    · constructor
      · intro hinside hover
        obtain ⟨i, offset, hi, hpast⟩ := hover.past h
        have hle := hinside offset _ ((hexact hcount offset _).mpr ⟨i, hi, rfl⟩)
        omega
      · intro hnot offset line hline
        obtain ⟨i, hi, rfl⟩ := (hexact hcount offset line).mp hline
        exact (hi.inside h).2.resolve_right hnot
  · obtain ⟨v, hv, hshows, hkey, h, i, hstands, hi, rfl⟩ :=
      htraced name key methods table offset line hclass hmethod hline
    exact ⟨v, hv, hshows, hkey, h, hstands, hi.inside h⟩

/-- A method of a nested class, with a body of three lines. -/
theorem mapped_lines_inside_nested :
    ∃ file s', nestedSession.write "a/A$B" = .ok (file, s') ∧
      ∃ h methods table, LineAt file.text (h + 4) "      \x7d" ∧
        file.tables.find? "a/A$B" = some methods ∧ methods.find? "m ()V" = some table ∧
        ∀ offset line, table.find? offset = some line → h < line ∧ line ≤ h + 4 := by
  have hlib : (Library.ofList [outer, inner]).Worded .oneLine := by
    have hclasses : (Library.ofList [outer, inner]).classes = [outer, inner] := rfl
    have hpool : (Library.ofList [outer, inner]).pool = [] := rfl
    refine ⟨?_, ?_, by simp [hpool]⟩
    · rw [hclasses]
      exact (by decide : ∀ c ∈ [outer, inner], ∀ s ∈ c.texts, OneLine s)
    · rw [hclasses]
      exact (by decide : ∀ c ∈ [outer, inner], ∀ e ∈ c.nestingEntries,
        ∀ s ∈ e.simpleName.toList, OneLine s)
  have hpolicy : Renaming.Worded .oneLine .keep := trivial
  have htree : ∃ t ∈ nestedSession.forest.trees, "a/A$B" ∈ t.names ∧
      ∃ v ∈ (nestedBodies.kit {} Unit).fileVisits t, (v.key = ("a/A$B", "m ()V") ∧ v.level = 2) ∧
        (((nestedBodies.kit {} Unit).fileVisits t).map Visit.key).count v.key = 1 ∧
        v.hasBody (nestedBodies.kit {} Unit) = true ∧
        MethodSketch.fate (nestedBodies.kit {} Unit) v (some (nestedBodies.bodyText {} v)) =
          .written ∧
        Text.isBlankText (nestedBodies.bodyText {} v) = false ∧
        (nestedBodies.shownLines {} v).length = 3 := by
    decide +kernel
  obtain ⟨t, ht, hn, v, hv, ⟨hkey, hlevel⟩, hcount, hbody, hwritten, hblank, hlength⟩ := htree
  obtain ⟨file, s', hwrite, hfile, _⟩ := mapped_lines_inside (σ := Unit) {} ⟨rfl, by decide⟩
    nestedBodies (fun _ h => by cases h) hlib hpolicy () [] t ht "a/A$B" hn
  obtain ⟨h, methods, table, hstands, hmethods, htable, hlines⟩ := hfile v hv ⟨hbody, hwritten⟩
  obtain ⟨hbelow, hinside⟩ := hlines hcount
  obtain ⟨hname, hmethod⟩ := Prod.mk.inj hkey
  have hclosing : nestedBodies.closingLine {} v h = h + 4 := by rw [closingLine, hlength]
  have hnot : ¬ nestedBodies.Overshoots {} v := fun hover => by
    have hover := hover.1
    rw [hblank] at hover
    cases hover
  have hbrace := hstands.brace
  rw [hclosing, hlevel] at hbrace
  rw [hname] at hmethods
  rw [hmethod] at htable
  refine ⟨file, s', hwrite, h, methods, table, hbrace, hmethods, htable,
    fun offset line hline => ?_⟩
  exact ⟨hbelow offset line hline, hclosing ▸ hinside.mpr hnot offset line hline⟩

section Blank

def idle : ClassDecl where
  name := "a/A"
  access := ⟨1⟩
  superclass := some "java/lang/Object"
  methods := [{ name := "m", descriptor := "()V", access := ⟨1⟩, lineTable := [⟨0, 7⟩, ⟨4, 8⟩] }]

def idleBodies : PreparedBodies where
  bodies := [("a/A m ()V", "\n\n")]

def idleSession : Session Unit :=
  .start (idleBodies.kit {} Unit) (.ofList [idle]) () .keep

/-- The closing brace of the method is on line 4 and its last offset is mapped to line 5, where the
class ends. -/
theorem blank_lines_overshoot :
    ({} : Options).layout.LineFed ∧ (∀ c ∈ [idle], ∀ s ∈ c.texts, OneLine s) ∧
      (idleSession.write "a/A").toOption.map (fun r => (r.1.text,
          ((r.1.tables.find? "a/A").bind (·.find? "m ()V")).map fun t => (t.find? 0, t.find? 4))) =
        some ("package a\n\nopen class A \x7b\n   fun m() \x7b\n   \x7d\n\x7d\n",
          some (some 4, some 5)) :=
  ⟨⟨rfl, by decide⟩, by decide, by decide +kernel⟩

end Blank

end PreparedBodies

end ClassSketch
