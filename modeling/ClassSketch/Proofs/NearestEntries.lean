import ClassSketch.Proofs.TraceRuns
import Mathlib.Order.Bounds.Basic

/-! Which line of the compiled source stands behind a written line. A line table may have its
entries in any order and starts more than once, and many offsets may stand on one written line. The
least of them that some entry covers decides, by the last of the entries that start nearest. -/

namespace ClassSketch

namespace LineEntry

/-- The offset is not below the starts of all entries. -/
def Covered (table : List LineEntry) (offset : Nat) : Prop :=
  ¬ ∀ e ∈ table, offset < e.startPc.toNat

/-- The entry starts latest among those that do not start after the offset, and is the last of these
in the table. -/
def IsNearest (table : List LineEntry) (offset : Nat) (e : LineEntry) : Prop :=
  e.startPc.toNat ≤ offset ∧ ∃ before later, table = before ++ e :: later ∧
    (∀ d ∈ before, d.startPc.toNat ≤ offset → d.startPc ≤ e.startPc) ∧
    ∀ d ∈ later, d.startPc.toNat ≤ offset → d.startPc < e.startPc

variable {table : List LineEntry} {offset : Nat} {d e : LineEntry}

theorem IsNearest.covered (h : IsNearest table offset e) : Covered table offset := by
  obtain ⟨hstart, before, later, rfl, -, -⟩ := h
  intro hbelow
  have hlt := hbelow e (by simp)
  omega

/-- Of two nearest entries neither can come before the other. -/
theorem IsNearest.unique (hd : IsNearest table offset d) (he : IsNearest table offset e) :
    d = e := by
  obtain ⟨hdstart, before, later, htable, hbefore, hlater⟩ := hd
  obtain ⟨hestart, before', later', htable', hbefore', hlater'⟩ := he
  rw [htable] at htable'
  -- if one came first, the other would start as late, but also strictly earlier
  rcases List.append_eq_append_iff.mp htable' with ⟨between, rfl, hrest⟩ | ⟨between, rfl, hrest⟩
  · cases between with
    | nil =>
      cases hrest
      rfl
    | cons c between =>
      cases hrest
      have hle := hbefore' d (by simp) hdstart
      have hlt := hlater e (by simp) hestart
      exact absurd hle (UInt32.not_le.mpr hlt)
  · cases between with
    | nil =>
      cases hrest
      rfl
    | cons c between =>
      cases hrest
      have hle := hbefore e (by simp) hestart
      have hlt := hlater' d (by simp) hdstart
      exact absurd hle (UInt32.not_le.mpr hlt)

/-- An entry put at the end is nearest, if it covers the offset and starts as late as the nearest
one before it. -/
theorem isNearest_concat (hstart : e.startPc.toNat ≤ offset)
    (h : ∀ d ∈ table, d.startPc.toNat ≤ offset → d.startPc ≤ e.startPc) :
    IsNearest (table ++ [e]) offset e :=
  ⟨hstart, table, [], rfl, h, List.forall_mem_nil _⟩

theorem IsNearest.le (h : IsNearest table offset e) :
    ∀ d ∈ table, d.startPc.toNat ≤ offset → d.startPc ≤ e.startPc := by
  obtain ⟨-, before, later, rfl, hbefore, hlater⟩ := h
  intro d hd hstart
  rcases List.mem_append.mp hd with hd | hd
  · exact hbefore d hd hstart
  · rcases List.mem_cons.mp hd with rfl | hd
    · exact UInt32.le_refl _
    · exact UInt32.le_of_lt (hlater d hd hstart)

theorem IsNearest.concat (h : IsNearest table offset e)
    (hd : d.startPc.toNat ≤ offset → d.startPc < e.startPc) :
    IsNearest (table ++ [d]) offset e := by
  obtain ⟨hstart, before, later, rfl, hbefore, hlater⟩ := h
  refine ⟨hstart, before, later ++ [d], by simp, hbefore, fun c hc => ?_⟩
  rcases List.mem_append.mp hc with hc | hc
  · exact hlater c hc
  · rw [List.mem_singleton] at hc
    exact hc ▸ hd

end LineEntry

namespace Trace

open LineEntry (Covered IsNearest)

variable {table : List LineEntry} {offset : Nat} {e : LineEntry}

theorem nearest?_concat (offset : Nat) (table : List LineEntry) (e : LineEntry) :
    nearest? offset (table ++ [e]) =
      if e.startPc.toNat ≤ offset then
        (nearest? offset table).elim (some e) fun b =>
          if b.startPc ≤ e.startPc then some e else some b
      else nearest? offset table := by
  unfold nearest?
  rw [List.foldl_append, List.foldl_cons, List.foldl_nil]
  generalize List.foldl _ none table = best
  cases best <;> rfl

/-- One pass over the table keeps the nearest of the entries so far. -/
theorem nearest?_spec (offset : Nat) (table : List LineEntry) :
    nearest? offset table = none ∧ ¬ Covered table offset ∨
      ∃ e, nearest? offset table = some e ∧ IsNearest table offset e := by
  induction table using List.reverseRecOn with
  | nil => exact .inl ⟨rfl, fun h => h (List.forall_mem_nil _)⟩
  | append_singleton table e ih =>
    rw [nearest?_concat]
    by_cases hstart : e.startPc.toNat ≤ offset
    · rw [if_pos hstart]
      right
      rcases ih with ⟨hnone, hbelow⟩ | ⟨b, hsome, hb⟩
      · refine ⟨e, by rw [hnone]; rfl, LineEntry.isNearest_concat hstart fun d hd hstart' => ?_⟩
        have hlt := Classical.not_not.mp hbelow d hd
        omega
      · rw [hsome, Option.elim_some]
        by_cases hle : b.startPc ≤ e.startPc
        · rw [if_pos hle]
          refine ⟨e, rfl, LineEntry.isNearest_concat hstart fun d hd hstart' => ?_⟩
          exact UInt32.le_trans (hb.le d hd hstart') hle
        · rw [if_neg hle]
          exact ⟨b, rfl, hb.concat fun _ => UInt32.not_le.mp hle⟩
    · rw [if_neg hstart]
      rcases ih with ⟨hnone, hbelow⟩ | ⟨b, hsome, hb⟩
      · refine .inl ⟨hnone, fun hcovered => hcovered fun d hd => ?_⟩
        rcases List.mem_append.mp hd with hd | hd
        · exact Classical.not_not.mp hbelow d hd
        · rw [List.mem_singleton.mp hd]
          omega
      · exact .inr ⟨b, hsome, hb.concat fun h => absurd h hstart⟩

theorem nearest?_eq_some_iff : nearest? offset table = some e ↔ IsNearest table offset e := by
  rcases nearest?_spec offset table with ⟨hnone, hbelow⟩ | ⟨b, hsome, hb⟩
  · rw [hnone]
    exact iff_of_false (fun h => by cases h) fun he => hbelow he.covered
  · rw [hsome, Option.some.injEq]
    constructor
    · rintro rfl
      exact hb
    · exact hb.unique

theorem isSome_nearest?_iff : (nearest? offset table).isSome = true ↔ Covered table offset := by
  rcases nearest?_spec offset table with ⟨hnone, hbelow⟩ | ⟨b, hsome, hb⟩
  · rw [hnone]
    exact iff_of_false (fun h => by cases h) hbelow
  · rw [hsome]
    exact iff_of_true rfl hb.covered

/-- What one offset and its line add to the source lines that were found. -/
def noteSource (table : List LineEntry) (found : Table Nat Nat) (entry : Nat × Nat) :
    Table Nat Nat :=
  (nearest? entry.1 table).elim found fun e => found.insertNew entry.2 e.line.toNat

theorem sourceLines_eq (t : Trace) :
    t.sourceLines = t.offsets.foldl (noteSource t.lineTable) [] := by
  rw [sourceLines]
  congr 1
  funext found entry
  obtain ⟨offset, line⟩ := entry
  rw [noteSource]
  dsimp only
  cases nearest? offset t.lineTable <;> rfl

/-- The source line that an offset and its line have for a written line. -/
def sourceOf? (table : List LineEntry) (line : Nat) (entry : Nat × Nat) : Option Nat :=
  if line = entry.2 then (nearest? entry.1 table).map (·.line.toNat) else none

theorem sourceOf?_eq_some_iff {line source : Nat} {entry : Nat × Nat} :
    sourceOf? table line entry = some source ↔
      line = entry.2 ∧ ∃ e, IsNearest table entry.1 e ∧ source = e.line.toNat := by
  rw [sourceOf?]
  split
  · next hline =>
    rw [Option.map_eq_some_iff, and_iff_right hline]
    exact exists_congr fun e => and_congr nearest?_eq_some_iff eq_comm
  · next hline => simp [hline]

theorem isSome_sourceOf?_iff {line : Nat} {entry : Nat × Nat} :
    (sourceOf? table line entry).isSome = true ↔ line = entry.2 ∧ Covered table entry.1 := by
  rw [sourceOf?]
  split
  · next hline => rw [Option.isSome_map, isSome_nearest?_iff, and_iff_right hline]
  · next hline => simp [hline]

section Sources

variable {found : Table Nat Nat}

theorem ascending_noteSource (h : found.Ascending) (table : List LineEntry) (entry : Nat × Nat) :
    (noteSource table found entry).Ascending := by
  rw [noteSource]
  cases nearest? entry.1 table with
  | none => exact h
  | some e => exact h.alter _ _

theorem find?_noteSource (h : found.Ascending) (table : List LineEntry) (entry : Nat × Nat)
    (line : Nat) : (noteSource table found entry).find? line =
      (found.find? line).or (sourceOf? table line entry) := by
  rw [noteSource, sourceOf?]
  cases nearest? entry.1 table with
  | none => simp
  | some e => exact h.find?_insertNew _ _ _

theorem find?_foldl_noteSource (h : found.Ascending) (table : List LineEntry)
    (offsets : OffsetTable) (line : Nat) :
    (offsets.foldl (noteSource table) found).find? line =
      (found.find? line).or (offsets.findSome? (sourceOf? table line)) := by
  induction offsets generalizing found with
  | nil => exact (Option.or_none).symm
  | cons entry offsets ih =>
    rw [List.foldl_cons, ih (ascending_noteSource h table entry), find?_noteSource h,
      Option.or_assoc, List.findSome?_cons]
    cases sourceOf? table line entry <;> rfl

end Sources

theorem find?_sourceLines (t : Trace) (line : Nat) :
    t.sourceLines.find? line = t.offsets.findSome? (sourceOf? t.lineTable line) := by
  rw [sourceLines_eq, find?_foldl_noteSource List.Pairwise.nil]
  rfl

/-- Offsets on a written line that some entry covers. -/
def Behind (t : Trace) (line : Nat) : Set Nat :=
  {offset | t.offsets.find? offset = some line ∧ Covered t.lineTable offset}

variable {t : Trace} {line : Nat}

theorem mem_behind_iff (ht : t.offsets.Ascending) {offset : Nat} :
    offset ∈ t.Behind line ↔ (offset, line) ∈ t.offsets ∧ Covered t.lineTable offset :=
  and_congr_left fun _ => ht.find?_eq_some_iff

theorem isSome_sourceLines_iff (ht : t.offsets.Ascending) :
    (t.sourceLines.find? line).isSome = true ↔ ∃ offset, offset ∈ t.Behind line := by
  rw [find?_sourceLines, List.findSome?_isSome_iff]
  simp only [isSome_sourceOf?_iff, mem_behind_iff ht]
  constructor
  · rintro ⟨entry, hmem, rfl, hcovered⟩
    exact ⟨entry.1, hmem, hcovered⟩
  · rintro ⟨offset, hmem, hcovered⟩
    exact ⟨(offset, line), hmem, rfl, hcovered⟩

/-- The first entry of the offsets that has a source for the line has the least offset. -/
theorem find?_sourceLines_eq_some_iff (ht : t.offsets.Ascending) {source : Nat} :
    t.sourceLines.find? line = some source ↔ ∃ offset e, IsLeast (t.Behind line) offset ∧
      IsNearest t.lineTable offset e ∧ source = e.line.toNat := by
  -- offsets ascend: those before the entry are smaller, those after it larger
  rw [find?_sourceLines, List.findSome?_eq_some_iff]
  constructor
  · rintro ⟨before, entry, later, hsplit, hsource, hnone⟩
    obtain ⟨rfl, e, hnear, rfl⟩ := sourceOf?_eq_some_iff.mp hsource
    have hmem : entry.1 ∈ t.Behind entry.2 :=
      (mem_behind_iff ht).mpr ⟨by simp [hsplit], hnear.covered⟩
    refine ⟨entry.1, e, ⟨hmem, fun offset hoffset => ?_⟩, hnear, rfl⟩
    obtain ⟨hin, hcovered⟩ := (mem_behind_iff ht).mp hoffset
    rw [hsplit, List.mem_append, List.mem_cons] at hin
    rcases hin with hin | heq | hin
    · have hsome : (sourceOf? t.lineTable entry.2 (offset, entry.2)).isSome = true :=
        isSome_sourceOf?_iff.mpr ⟨rfl, hcovered⟩
      rw [hnone _ hin] at hsome
      cases hsome
    · exact Nat.le_of_eq (congrArg Prod.fst heq).symm
    · rw [hsplit] at ht
      have hlt := (List.pairwise_cons.mp (List.pairwise_append.mp ht).2.1).1 _ hin
      exact Nat.le_of_lt hlt
  · rintro ⟨offset, e, ⟨hoffset, hleast⟩, hnear, rfl⟩
    obtain ⟨before, later, hsplit⟩ := List.append_of_mem ((mem_behind_iff ht).mp hoffset).1
    refine ⟨before, (offset, line), later, hsplit, ?_, fun entry hentry => ?_⟩
    · exact sourceOf?_eq_some_iff.mpr ⟨rfl, e, hnear, rfl⟩
    · rw [← Option.not_isSome_iff_eq_none, isSome_sourceOf?_iff]
      rintro ⟨rfl, hcovered⟩
      have hle : offset ≤ entry.1 :=
        hleast ((mem_behind_iff ht).mpr ⟨by simp [hsplit, hentry], hcovered⟩)
      rw [hsplit] at ht
      have hlt := (List.pairwise_append.mp ht).2.2 entry hentry _ List.mem_cons_self
      exact absurd hle (Nat.not_le.mpr hlt)

/-- A written line has a source line if some offset on it is covered. It is the line of the nearest
entry for the least of these offsets, whatever the order of the line table. -/
theorem source_line_of_nearest_entry {start : Nat} {steps : List TraceStep}
    (h : TraceStep.run? { line := start } steps = some t) (line : Nat) :
    ((t.sourceLines.find? line).isSome = true ↔ ∃ offset, t.offsets.find? offset = some line ∧
        ¬ ∀ e ∈ t.lineTable, offset < e.startPc.toNat) ∧
      ∀ source, t.sourceLines.find? line = some source ↔ ∃ offset e,
        IsLeast (t.Behind line) offset ∧ IsNearest t.lineTable offset e ∧
          source = e.line.toNat := by
  have hnil : Table.Ascending ({ line := start : Trace }).offsets := List.Pairwise.nil
  have ht : t.offsets.Ascending := (TraceStep.offsets_run? hnil h).1
  exact ⟨isSome_sourceLines_iff ht, fun _ => find?_sourceLines_eq_some_iff ht⟩

section Unsorted

/-- A line table out of order, in which two entries start together. -/
def unsortedTable : List LineEntry := [⟨5, 101⟩, ⟨2, 100⟩, ⟨5, 102⟩]

/-- Offset 1 shares a line with offsets that are covered, offset 0 does not. -/
def unsortedSteps : List TraceStep :=
  [.setTable unsortedTable, .markAll [7, 3, 1], .advance 1, .mark 9, .advance 1, .mark 0]

def unsortedTrace : Trace := ⟨12, [(0, 12), (1, 10), (3, 10), (7, 10), (9, 11)], unsortedTable⟩

theorem unsorted_table_read :
    TraceStep.run? { line := 10 } unsortedSteps = some unsortedTrace ∧
      unsortedTrace.sourceLines.find? 10 = some 100 ∧
      unsortedTrace.sourceLines.find? 11 = some 102 ∧
      unsortedTrace.sourceLines.find? 12 = none := by
  have hrun : TraceStep.run? { line := 10 } unsortedSteps = some unsortedTrace := by decide
  have hten : IsLeast (unsortedTrace.Behind 10) 3 := by
    refine ⟨⟨by decide, fun h => absurd (h ⟨2, 100⟩ (by decide)) (by decide)⟩, ?_⟩
    rintro offset ⟨hline, hcovered⟩
    have hmem : offset = 1 ∨ offset = 3 ∨ offset = 7 := by
      simpa [unsortedTrace] using Table.mem_of_find? hline
    have hone : offset ≠ 1 := by
      rintro rfl
      exact hcovered (by decide)
    omega
  have heleven : IsLeast (unsortedTrace.Behind 11) 9 := by
    refine ⟨⟨by decide, fun h => absurd (h ⟨2, 100⟩ (by decide)) (by decide)⟩, ?_⟩
    rintro offset ⟨hline, -⟩
    have hmem : offset = 9 := by
      simpa [unsortedTrace] using Table.mem_of_find? hline
    omega
  refine ⟨hrun, ((source_line_of_nearest_entry hrun 10).2 100).mpr ⟨3, ⟨2, 100⟩, hten, ?_, rfl⟩,
    ((source_line_of_nearest_entry hrun 11).2 102).mpr ⟨9, ⟨5, 102⟩, heleven, ?_, rfl⟩, ?_⟩
  · exact ⟨by decide, [⟨5, 101⟩], [⟨5, 102⟩], rfl, by decide, by decide⟩
  · exact ⟨by decide, [⟨5, 101⟩, ⟨2, 100⟩], [], rfl, by decide, by decide⟩
  · rw [← Option.not_isSome_iff_eq_none, (source_line_of_nearest_entry hrun 12).1]
    rintro ⟨offset, hline, hcovered⟩
    obtain rfl : offset = 0 := by
      simpa [unsortedTrace] using Table.mem_of_find? hline
    exact hcovered (by decide)

end Unsorted

end Trace

end ClassSketch
