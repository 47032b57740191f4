import ClassSketch.Proofs.Offsets
import Mathlib.Algebra.Ring.Nat
import Mathlib.Data.List.Induction

/-! Traces and line maps under any sequence of steps. The line of an offset is written once: the
first step that maps the offset decides, in a trace as in a map, and no later step changes it. The
shift of a map is added whenever a table is read, so it does not matter when it was made. -/

namespace ClassSketch

/-- What can be done with a trace. -/
inductive TraceStep where
  | advance (n : Nat)
  | moveTo (line : Nat)
  | mark (offset : Nat)
  | markAll (offsets : List Nat)
  | absorb (other : Trace)
  | setTable (table : List LineEntry)

namespace TraceStep

/-- The trace after a step, unless the line would not fit any more. -/
def taken? (t : Trace) : TraceStep → Option Trace
  | advance n => t.advance? n
  | moveTo line => some (t.moveTo line)
  | mark offset => some (t.mark offset)
  | markAll offsets => some (t.markAll offsets)
  | absorb other => some (t.absorb other)
  | setTable table => some { t with lineTable := table }

def run? (t : Trace) (steps : List TraceStep) : Option Trace := steps.foldlM taken? t

/-- The line on which a trace stands after a step that is taken on the given line. -/
def next (line : Nat) : TraceStep → Nat
  | advance n => line + n
  | moveTo line' => line'
  | mark _ | markAll _ | absorb _ | setTable _ => line

def lineAfter (line : Nat) (steps : List TraceStep) : Nat := steps.foldl next line

/-- Every line that the steps come to by going forward fits. -/
def Fits (line : Nat) (steps : List TraceStep) : Prop :=
  ∀ before n later, steps = before ++ advance n :: later → lineAfter line before + n < lineLimit

def Maps (offset : Nat) : TraceStep → Prop
  | mark offset' => offset = offset'
  | markAll offsets => offset ∈ offsets
  | absorb other => ∃ line, other.offsets.find? offset = some line
  | advance _ | moveTo _ | setTable _ => False

/-- The line that a step has for an offset, when it is taken on the given line. -/
def given? (offset line : Nat) : TraceStep → Option Nat
  | mark offset' => if offset = offset' then some line else none
  | markAll offsets => if offset ∈ offsets then some line else none
  | absorb other => other.offsets.find? offset
  | advance _ | moveTo _ | setTable _ => none

/-- The first of the steps that map the offset gives it the line. -/
def FirstGiven (start : Nat) (steps : List TraceStep) (offset line : Nat) : Prop :=
  ∃ before step later, steps = before ++ step :: later ∧ (∀ s ∈ before, ¬ s.Maps offset) ∧
    step.given? offset (lineAfter start before) = some line

def firstGiven? (offset : Nat) : Nat → List TraceStep → Option Nat
  | _, [] => none
  | line, s :: steps => (s.given? offset line).or (firstGiven? offset (s.next line) steps)

theorem given?_eq_none_iff {offset line : Nat} {s : TraceStep} :
    s.given? offset line = none ↔ ¬ s.Maps offset := by
  cases s with
  | advance n => simp [given?, Maps]
  | moveTo l => simp [given?, Maps]
  | mark o => simp [given?, Maps]
  | markAll os => simp [given?, Maps]
  | absorb other => simp [given?, Maps, Option.eq_none_iff_forall_ne_some]
  | setTable table => simp [given?, Maps]

theorem firstGiven?_eq_some_iff {offset line given : Nat} {steps : List TraceStep} :
    firstGiven? offset line steps = some given ↔ FirstGiven line steps offset given := by
  induction steps generalizing line with
  | nil => simp [firstGiven?, FirstGiven]
  | cons s steps ih =>
    rw [firstGiven?]
    -- a step that gives a line is the first one, any other can be put in front
    cases hs : s.given? offset line with
    | some l =>
      rw [Option.some_or]
      constructor
      · intro heq
        exact ⟨[], s, steps, rfl, List.forall_mem_nil _, hs.trans heq⟩
      · rintro ⟨before, step, later, hsplit, hnone, hgiven⟩
        cases before with
        | nil =>
          cases hsplit
          exact hs.symm.trans hgiven
        | cons b before =>
          cases hsplit
          cases (given?_eq_none_iff.mpr (hnone s List.mem_cons_self)).symm.trans hs
    | none =>
      rw [Option.none_or, ih]
      constructor
      · rintro ⟨before, step, later, rfl, hnone, hgiven⟩
        refine ⟨s :: before, step, later, rfl, ?_, hgiven⟩
        exact List.forall_mem_cons.mpr ⟨given?_eq_none_iff.mp hs, hnone⟩
      · rintro ⟨before, step, later, hsplit, hnone, hgiven⟩
        cases before with
        | nil =>
          cases hsplit
          cases hs.symm.trans hgiven
        | cons b before =>
          cases hsplit
          exact ⟨before, step, later, rfl, (List.forall_mem_cons.mp hnone).2, hgiven⟩

end TraceStep

namespace Trace

variable {t t' : Trace}

theorem eq_advance_of_advance? {n : Nat} (h : t.advance? n = some t') : t' = t.advance n := by
  rw [advance?] at h
  split at h
  · exact (Option.some.inj h).symm
  · cases h

theorem find?_mark (h : t.offsets.Ascending) (offset' offset : Nat) :
    (t.mark offset').offsets.find? offset =
      (t.offsets.find? offset).or (if offset = offset' then some t.line else none) :=
  h.find?_insertNew _ _ _

theorem line_markAll (t : Trace) (offsets : List Nat) : (t.markAll offsets).line = t.line :=
  List.foldlRecOn (motive := fun u : Trace => u.line = t.line) offsets _ rfl fun _ hu _ _ => hu

theorem offsets_markAll (h : t.offsets.Ascending) (offsets : List Nat) :
    (t.markAll offsets).offsets.Ascending ∧
      ∀ offset, (t.markAll offsets).offsets.find? offset =
        (t.offsets.find? offset).or (if offset ∈ offsets then some t.line else none) := by
  induction offsets generalizing t with
  | nil => exact ⟨h, fun offset => by simp [markAll]⟩
  | cons o offsets ih =>
    obtain ⟨hasc, hfind⟩ := ih (t := t.mark o) (h.alter _ _)
    refine ⟨hasc, fun offset => (hfind offset).trans ?_⟩
    rw [find?_mark h, Option.or_assoc]
    by_cases ho : offset = o
    · simp [ho]
    · simp [ho, mark]

end Trace

namespace TraceStep

variable {t t' : Trace} {s : TraceStep} {steps : List TraceStep}

theorem line_taken? (h : s.taken? t = some t') : t'.line = s.next t.line := by
  cases s with
  | advance n =>
    rw [Trace.eq_advance_of_advance? h]
    rfl
  | moveTo l => cases h; rfl
  | mark o => cases h; rfl
  | markAll os =>
    cases h
    exact t.line_markAll os
  | absorb other => cases h; rfl
  | setTable table => cases h; rfl

/-- A step adds the lines that it gives, to offsets that have none. -/
theorem offsets_taken? (ht : t.offsets.Ascending) (h : s.taken? t = some t') :
    t'.offsets.Ascending ∧
      ∀ offset, t'.offsets.find? offset =
        (t.offsets.find? offset).or (s.given? offset t.line) := by
  have hsame : t.offsets.Ascending ∧
      ∀ offset, t.offsets.find? offset = (t.offsets.find? offset).or none :=
    ⟨ht, fun _ => (Option.or_none).symm⟩
  cases s with
  | advance n =>
    rw [Trace.eq_advance_of_advance? h]
    exact hsame
  | moveTo l =>
    cases h
    exact hsame
  | mark o =>
    cases h
    exact ⟨ht.alter _ _, fun _ => Trace.find?_mark ht _ _⟩
  | markAll os =>
    cases h
    exact Trace.offsets_markAll ht os
  | absorb other =>
    cases h
    exact ⟨ht.absorb _, fun _ => ht.find?_absorb _ _⟩
  | setTable table =>
    cases h
    exact hsame

theorem run?_cons (t : Trace) (s : TraceStep) (steps : List TraceStep) :
    run? t (s :: steps) = (s.taken? t).bind fun u => run? u steps :=
  List.foldlM_cons

theorem run?_append (t : Trace) (steps steps' : List TraceStep) :
    run? t (steps ++ steps') = (run? t steps).bind fun u => run? u steps' :=
  List.foldlM_append

theorem line_run? (h : run? t steps = some t') : t'.line = lineAfter t.line steps := by
  induction steps generalizing t with
  | nil => cases h; rfl
  | cons s steps ih =>
    rw [run?_cons] at h
    obtain ⟨u, hu, hrest⟩ := Option.bind_eq_some_iff.mp h
    rw [ih hrest, line_taken? hu]
    rfl

theorem offsets_run? (ht : t.offsets.Ascending) (h : run? t steps = some t') :
    t'.offsets.Ascending ∧
      ∀ offset, t'.offsets.find? offset =
        (t.offsets.find? offset).or (firstGiven? offset t.line steps) := by
  induction steps generalizing t with
  | nil =>
    cases h
    exact ⟨ht, fun _ => (Option.or_none).symm⟩
  | cons s steps ih =>
    rw [run?_cons] at h
    obtain ⟨u, hu, hrest⟩ := Option.bind_eq_some_iff.mp h
    obtain ⟨hasc, hfind⟩ := offsets_taken? ht hu
    obtain ⟨hasc', hfind'⟩ := ih hasc hrest
    refine ⟨hasc', fun offset => ?_⟩
    rw [hfind', hfind, Option.or_assoc, line_taken? hu, firstGiven?]

theorem isSome_taken? (t : Trace) (s : TraceStep) :
    (s.taken? t).isSome = true ↔ ∀ n, s = advance n → t.line + n < lineLimit := by
  cases s with
  | advance n => simp [taken?, Trace.advance?]
  | moveTo l => simp [taken?]
  | mark o => simp [taken?]
  | markAll os => simp [taken?]
  | absorb other => simp [taken?]
  | setTable table => simp [taken?]

theorem fits_cons {line : Nat} :
    Fits line (s :: steps) ↔
      (∀ n, s = advance n → line + n < lineLimit) ∧ Fits (s.next line) steps := by
  constructor
  · intro h
    refine ⟨fun n hs => h [] n steps (by rw [hs]; rfl), fun before n later hsplit => ?_⟩
    exact h (s :: before) n later (by rw [hsplit]; rfl)
  · rintro ⟨hfirst, hrest⟩ before n later hsplit
    cases before with
    | nil =>
      cases hsplit
      exact hfirst n rfl
    | cons b before =>
      cases hsplit
      exact hrest before n later rfl

/-- Nothing but a line that does not fit stops a trace. -/
theorem isSome_run?_iff (t : Trace) (steps : List TraceStep) :
    (run? t steps).isSome = true ↔ Fits t.line steps := by
  induction steps generalizing t with
  | nil => simp [run?, Fits]
  | cons s steps ih =>
    rw [run?_cons, fits_cons, ← isSome_taken?]
    cases hs : s.taken? t with
    | none => simp
    | some u => simp [ih, line_taken? hs]

end TraceStep

/-- What can be done with a map of lines. -/
inductive MapStep where
  | add (className key : String) (t : Trace)
  | shiftBy (lines : Nat)

namespace MapStep

/-- The map after a step, unless the shift would not fit any more. -/
def taken? (m : LineMap) : MapStep → Option LineMap
  | add className key t => some (m.add className key t)
  | shiftBy lines => if m.shift + lines < lineLimit then some (m.shiftBy lines) else none

def run? (steps : List MapStep) : Option LineMap := steps.foldlM taken? {}

def lines : MapStep → Nat
  | add _ _ _ => 0
  | shiftBy lines => lines

/-- By how much the steps shift a map in all. -/
def shift (steps : List MapStep) : Nat := (steps.map lines).sum

/-- The line of an offset in a trace that the step files for the method. -/
def given? (method : String × String) (offset : Nat) : MapStep → Option Nat
  | add className key t => if method = (className, key) then t.offsets.find? offset else none
  | shiftBy _ => none

/-- The first of the traces filed for the method that have the offset has it on the line. -/
def FirstFiled (steps : List MapStep) (method : String × String) (offset line : Nat) : Prop :=
  ∃ before t later, steps = before ++ add method.1 method.2 t :: later ∧
    (∀ u, add method.1 method.2 u ∈ before → u.offsets.find? offset = none) ∧
    t.offsets.find? offset = some line

theorem firstFiled_iff {steps : List MapStep} {method : String × String} {offset line : Nat} :
    steps.findSome? (given? method offset) = some line ↔ FirstFiled steps method offset line := by
  rw [List.findSome?_eq_some_iff]
  constructor
  · rintro ⟨before, step, later, rfl, hgiven, hnone⟩
    cases step with
    | add className key t =>
      rw [given?] at hgiven
      split at hgiven
      · next hmethod =>
        subst hmethod
        refine ⟨before, t, later, rfl, fun u hu => ?_, hgiven⟩
        have hu := hnone _ hu
        rwa [given?, if_pos rfl] at hu
      · cases hgiven
    | shiftBy n => cases hgiven
  · rintro ⟨before, t, later, rfl, hnone, hfind⟩
    refine ⟨before, _, later, rfl, ?_, fun step hstep => ?_⟩
    · rw [given?, if_pos rfl, hfind]
    · cases step with
      | add className key u =>
        rw [given?]
        split
        · next hmethod =>
          subst hmethod
          exact hnone u hstep
        · rfl
      | shiftBy n => rfl

/-- What a map holds after some steps. -/
structure Filed (steps : List MapStep) (m : LineMap) : Prop where
  ordered : m.Ordered
  shift_eq : m.shift = shift steps
  isSome_iff : ∀ method, (m.counted? method).isSome = true ↔
    ∃ t, add method.1 method.2 t ∈ steps
  ascending : ∀ method, Table.Ascending ((m.counted? method).getD [])
  find?_eq : ∀ method offset, ((m.counted? method).getD []).find? offset =
    steps.findSome? (given? method offset)

theorem Filed.empty : Filed [] {} where
  ordered := ⟨List.Pairwise.nil, fun _ _ h => by cases h⟩
  shift_eq := rfl
  isSome_iff method := by simp [LineMap.counted?, Table.find?]
  ascending method := List.Pairwise.nil
  find?_eq method offset := rfl

theorem shift_concat (steps : List MapStep) (step : MapStep) :
    shift (steps ++ [step]) = shift steps + step.lines := by
  simp [shift]

theorem findSome?_concat (steps : List MapStep) (step : MapStep) (method : String × String)
    (offset : Nat) : (steps ++ [step]).findSome? (given? method offset) =
      (steps.findSome? (given? method offset)).or (step.given? method offset) := by
  rw [List.findSome?_append, List.findSome?_singleton]

variable {steps : List MapStep} {m m' : LineMap} {step : MapStep}

theorem Filed.add (h : Filed steps m) (name key : String) (t : Trace) :
    Filed (steps ++ [.add name key t]) (m.add name key t) := by
  refine ⟨h.ordered.add name key t, ?_, fun method => ?_, fun method => ?_, fun method offset => ?_⟩
  · rw [shift_concat]
    exact h.shift_eq
  · rw [h.ordered.counted?_add]
    by_cases hm : method = (name, key)
    · subst hm
      simp
    · have hne : ∀ u, MapStep.add method.1 method.2 u ≠ .add name key t := by
        intro u heq
        injection heq with hname hkey
        exact hm (Prod.ext hname hkey)
      simp [hm, h.isSome_iff, hne]
  · rw [h.ordered.counted?_add]
    split
    · exact (h.ascending method).absorb _
    · exact h.ascending method
  · rw [h.ordered.counted?_add, findSome?_concat, ← h.find?_eq, given?]
    split
    · exact (h.ascending method).find?_absorb _ _
    · exact (Option.or_none).symm

theorem Filed.shiftBy (h : Filed steps m) (n : Nat) :
    Filed (steps ++ [.shiftBy n]) (m.shiftBy n) := by
  refine ⟨⟨h.ordered.classes, h.ordered.methods⟩, ?_, fun method => ?_, h.ascending,
    fun method offset => ?_⟩
  · rw [shift_concat, ← h.shift_eq]
    rfl
  · have hsame : (∃ t, MapStep.add method.1 method.2 t ∈ steps ++ [.shiftBy n]) ↔
        ∃ t, MapStep.add method.1 method.2 t ∈ steps := by simp
    exact (h.isSome_iff method).trans hsame.symm
  · rw [findSome?_concat, given?, Option.or_none, ← h.find?_eq]
    rfl

theorem run?_concat (steps : List MapStep) (step : MapStep) :
    run? (steps ++ [step]) = (run? steps).bind fun m => step.taken? m := by
  rw [run?, List.foldlM_append]
  exact congrArg _ (funext fun m => List.foldlM_cons.trans (bind_pure _))

theorem filed_run? (h : run? steps = some m) : Filed steps m := by
  induction steps using List.reverseRecOn generalizing m with
  | nil =>
    cases h
    exact Filed.empty
  | append_singleton steps step ih =>
    rw [run?_concat] at h
    obtain ⟨u, hu, hstep⟩ := Option.bind_eq_some_iff.mp h
    cases step with
    | add name key t =>
      cases hstep
      exact (ih hu).add name key t
    | shiftBy n =>
      rw [taken?] at hstep
      split at hstep
      · cases hstep
        exact (ih hu).shiftBy n
      · cases hstep

/-- Nothing but a shift that does not fit stops the steps. -/
theorem isSome_run?_iff (steps : List MapStep) :
    (run? steps).isSome = true ↔ shift steps < lineLimit := by
  induction steps using List.reverseRecOn with
  | nil => exact iff_of_true rfl (by decide)
  | append_singleton steps step ih =>
    rw [run?_concat, shift_concat]
    cases hm : run? steps with
    | none =>
      -- a shift that was too large stays so
      rw [hm] at ih
      have hbig : ¬ shift steps < lineLimit := fun h => by cases ih.mpr h
      have htotal : ¬ shift steps + step.lines < lineLimit := by omega
      exact iff_of_false (fun h => by cases h) htotal
    | some m =>
      rw [hm] at ih
      have hsmall : shift steps < lineLimit := ih.mp rfl
      cases step with
      | add name key t => simp [taken?, lines, hsmall]
      | shiftBy n => simp [taken?, lines, (filed_run? hm).shift_eq]

end MapStep

namespace LineMap

variable {m : LineMap}

theorem methodTable?_eq (m : LineMap) (name key : String) :
    m.methodTable? name key = (m.tables.find? name).bind (·.find? key) := by
  rw [methodTable?, tables, Table.find?_mapValues]
  cases m.classes.find? name with
  | none => rfl
  | some methods => exact (Table.find?_mapValues m.shifted methods key).symm

theorem Ordered.fits_iff (h : m.Ordered) :
    m.fits = true ↔
      ∀ name key table, m.methodTable? name key = some table → tableFits table = true := by
  rw [fits, List.all_eq_true]
  constructor
  · intro hall name key table htable
    rw [methodTable?_eq] at htable
    obtain ⟨methods, hclass, hmethod⟩ := Option.bind_eq_some_iff.mp htable
    exact List.all_eq_true.mp (hall _ (Table.mem_of_find? hclass)) _ (Table.mem_of_find? hmethod)
  · intro hall entry hentry
    refine List.all_eq_true.mpr fun e he => hall entry.1 e.1 e.2 ?_
    have hclass := (h.classes.mapValues _).find?_eq_some_iff.mpr hentry
    rw [Table.find?_mapValues] at hclass
    obtain ⟨methods, hmethods, heq⟩ := Option.map_eq_some_iff.mp hclass
    have hasc := h.methods _ _ hmethods
    rw [methodTable?, hmethods, Option.bind_some, ← Table.find?_mapValues, heq]
    exact (heq ▸ hasc.mapValues m.shifted).find?_eq_some_iff.mpr he

end LineMap

namespace MapStep

variable {steps : List MapStep} {m : LineMap}

theorem Filed.isSome_methodTable? (h : Filed steps m) (name key : String) :
    (m.methodTable? name key).isSome = true ↔ ∃ t, MapStep.add name key t ∈ steps := by
  rw [← h.isSome_iff (name, key), LineMap.methodTable?, Option.isSome_map]
  rfl

theorem Filed.find?_methodTable? (h : Filed steps m) {name key : String} {table : OffsetTable}
    (htable : m.methodTable? name key = some table) : table.Ascending ∧ ∀ offset line,
      table.find? offset = some line ↔
        ∃ given, FirstFiled steps (name, key) offset given ∧ line = given + shift steps := by
  obtain ⟨counted, hcounted, rfl⟩ := Option.map_eq_some_iff.mp htable
  have hcounted : m.counted? (name, key) = some counted := hcounted
  have hasc := h.ascending (name, key)
  have hfind := h.find?_eq (name, key)
  rw [hcounted, Option.getD_some] at hasc hfind
  refine ⟨hasc.mapValues _, fun offset line => ?_⟩
  rw [LineMap.shifted, Table.find?_mapValues, hfind, Option.map_eq_some_iff, h.shift_eq]
  exact exists_congr fun given => and_congr firstFiled_iff eq_comm

theorem Filed.fits_iff (h : Filed steps m) :
    m.fits = true ↔ ∀ method offset given, FirstFiled steps method offset given →
      given + shift steps < lineLimit := by
  rw [h.ordered.fits_iff]
  constructor
  · rintro hfits ⟨name, key⟩ offset given hfirst
    obtain ⟨before, t, later, heq, -, -⟩ := id hfirst
    have hadded : ∃ t, MapStep.add name key t ∈ steps := ⟨t, by simp [heq]⟩
    obtain ⟨table, htable⟩ :=
      Option.isSome_iff_exists.mp ((h.isSome_methodTable? name key).mpr hadded)
    have hline := ((h.find?_methodTable? htable).2 offset _).mpr ⟨given, hfirst, rfl⟩
    simpa using List.all_eq_true.mp (hfits name key table htable) _ (Table.mem_of_find? hline)
  · intro hfirst name key table htable
    obtain ⟨hasc, hfind⟩ := h.find?_methodTable? htable
    refine List.all_eq_true.mpr fun e he => ?_
    obtain ⟨given, hgiven, hline⟩ := (hfind e.1 e.2).mp (hasc.find?_eq_some_iff.mpr he)
    have hlt := hfirst _ _ _ hgiven
    rw [← hline] at hlt
    exact decide_eq_true hlt

end MapStep

/-- The line of an offset is written once. In a trace the first step that maps the offset decides,
and what was found after some of the steps is found after all of them. In a map the first trace
decides that was filed for the method and has the offset. All shifts are added to its line. -/
theorem lines_written_once (start : Nat) {steps : List TraceStep}
    (hsteps : TraceStep.Fits start steps) {filings : List MapStep}
    (hfilings : MapStep.shift filings < lineLimit) :
    (∃ t, TraceStep.run? { line := start } steps = some t ∧
        t.line = TraceStep.lineAfter start steps ∧
        (∀ offset line, t.offsets.find? offset = some line ↔
          TraceStep.FirstGiven start steps offset line) ∧
        ∀ before later, steps = before ++ later →
          ∃ u, TraceStep.run? { line := start } before = some u ∧
            ∀ offset line, u.offsets.find? offset = some line →
              t.offsets.find? offset = some line) ∧
      ∃ m, MapStep.run? filings = some m ∧
        (∀ name key, m.methodTable? name key = (m.tables.find? name).bind (·.find? key)) ∧
        (∀ name key, (m.methodTable? name key).isSome = true ↔
          ∃ t, MapStep.add name key t ∈ filings) ∧
        (∀ name key table, m.methodTable? name key = some table → table.Ascending ∧
          ∀ offset line, table.find? offset = some line ↔
            ∃ given, MapStep.FirstFiled filings (name, key) offset given ∧
              line = given + MapStep.shift filings) ∧
        (m.fits = true ↔ ∀ method offset given, MapStep.FirstFiled filings method offset given →
          given + MapStep.shift filings < lineLimit) := by
  have hnil : Table.Ascending ({ line := start : Trace }).offsets := List.Pairwise.nil
  obtain ⟨t, ht⟩ := Option.isSome_iff_exists.mp
    ((TraceStep.isSome_run?_iff { line := start } steps).mpr hsteps)
  obtain ⟨m, hm⟩ := Option.isSome_iff_exists.mp ((MapStep.isSome_run?_iff filings).mpr hfilings)
  have hfiled := MapStep.filed_run? hm
  refine ⟨⟨t, ht, TraceStep.line_run? ht, fun offset line => ?_, ?_⟩,
    m, hm, m.methodTable?_eq, hfiled.isSome_methodTable?, fun name key table htable => ?_,
    hfiled.fits_iff⟩
  · rw [(TraceStep.offsets_run? hnil ht).2, ← TraceStep.firstGiven?_eq_some_iff]
    rfl
  · rintro before later rfl
    rw [TraceStep.run?_append] at ht
    obtain ⟨u, hu, hlater⟩ := Option.bind_eq_some_iff.mp ht
    have hasc := (TraceStep.offsets_run? hnil hu).1
    refine ⟨u, hu, fun offset line hline => ?_⟩
    rw [(TraceStep.offsets_run? hasc hlater).2, hline, Option.some_or]
  · exact hfiled.find?_methodTable? htable

section Rewritten

def otherTrace : Trace := { line := 9, offsets := [(0, 9), (2, 9)] }

/-- Offset 0 is mapped three times and offset 2 twice, on different lines. -/
def remapping : List TraceStep :=
  [.mark 0, .advance 1, .markAll [0, 4], .absorb otherTrace, .moveTo 1, .mark 2]

def refiling : List MapStep :=
  [.shiftBy 1, .add "a/B" "run ()V" { offsets := [(0, 4)] }, .add "a/B" "run ()V" otherTrace,
    .shiftBy 2]

theorem first_lines_stay :
    (∃ t, TraceStep.run? { line := 3 } remapping = some t ∧ t.offsets.find? 0 = some 3 ∧
        t.offsets.find? 2 = some 9) ∧
      ∃ m, MapStep.run? refiling = some m ∧ m.fits = true ∧
        ∃ table, m.methodTable? "a/B" "run ()V" = some table ∧ table.find? 0 = some 7 ∧
          table.find? 2 = some 12 := by
  have hsteps : TraceStep.Fits 3 remapping :=
    (TraceStep.isSome_run?_iff { line := 3 } remapping).mp (by decide)
  have hfilings : MapStep.shift refiling < lineLimit := by decide
  obtain ⟨⟨t, ht, -, hlines, -⟩, m, hm, -, hsome, htables, -⟩ :=
    lines_written_once 3 hsteps hfilings
  obtain ⟨table, htable⟩ := Option.isSome_iff_exists.mp
    ((hsome "a/B" "run ()V").mpr ⟨otherTrace, by simp [refiling]⟩)
  have hfind := (htables _ _ table htable).2
  refine ⟨⟨t, ht, (hlines 0 3).mpr ?_, (hlines 2 9).mpr ?_⟩, m, hm, ?_, table, htable,
    (hfind 0 7).mpr ⟨4, ?_, rfl⟩, (hfind 2 12).mpr ⟨9, ?_, rfl⟩⟩
  · exact ⟨[], _, _, rfl, List.forall_mem_nil _, rfl⟩
  · exact ⟨[.mark 0, .advance 1, .markAll [0, 4]], _, _, rfl, by simp [TraceStep.Maps], rfl⟩
  · have hfits : (MapStep.run? refiling).map (·.fits) = some true := by decide +kernel
    rw [hm] at hfits
    exact Option.some.inj hfits
  · exact ⟨[.shiftBy 1], _, _, rfl, by simp, rfl⟩
  · refine ⟨[.shiftBy 1, .add "a/B" "run ()V" { offsets := [(0, 4)] }], _, _, rfl, ?_, rfl⟩
    simp [Table.find?]

end Rewritten

end ClassSketch
