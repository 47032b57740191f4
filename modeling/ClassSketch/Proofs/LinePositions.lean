import ClassSketch.Proofs.LineCount
import ClassSketch.Proofs.Tables

/-! Where the lines of a prepared body stand in its text, and where its offsets are marked. Both
count from the line on which the body starts. -/

namespace ClassSketch

namespace Text

/-- What follows starts a line. -/
def Closed (s : String) : Prop := s = "" ∨ ∃ r, s = r ++ "\n"

theorem Closed.append {s t : String} (hs : Closed s) (ht : Closed t) : Closed (s ++ t) := by
  rcases ht with rfl | ⟨r, rfl⟩
  · rwa [String.append_empty]
  · exact .inr ⟨s ++ r, by rw [String.append_assoc]⟩

/-- Line `n` of a text, counted from zero. It is ended by a line feed. -/
def LineAt (text : String) (n : Nat) (line : String) : Prop :=
  ∃ before after, text = before ++ (line ++ "\n" ++ after) ∧ newlines before = n ∧ Closed before

variable {text line : String} {n : Nat}

theorem LineAt.append (h : LineAt text n line) (s : String) : LineAt (text ++ s) n line := by
  obtain ⟨before, after, rfl, hn, hc⟩ := h
  exact ⟨before, after ++ s, by simp only [String.append_assoc], hn, hc⟩

theorem LineAt.prepend (h : LineAt text n line) {s : String} (hs : Closed s) :
    LineAt (s ++ text) (newlines s + n) line := by
  obtain ⟨before, after, rfl, hn, hc⟩ := h
  refine ⟨s ++ before, after, by simp only [String.append_assoc], ?_, hs.append hc⟩
  rw [newlines_append, hn]

theorem length_splitOn_lineFeed (cs : List Char) :
    (cs.splitOn '\n').length = cs.count '\n' + 1 := by
  induction cs with
  | nil => rfl
  | cons c cs ih =>
    rw [List.splitOn_cons_eq_if_modifyHead]
    by_cases hc : c = '\n'
    · simp [hc, ih]
    · simp [hc, ih]

theorem splitOn_append_lineFeed (cs ds : List Char) :
    (cs ++ '\n' :: ds).splitOn '\n' = cs.splitOn '\n' ++ ds.splitOn '\n' :=
  List.splitOnP_append_cons cs ds (beq_self_eq_true '\n')

/-- The line is found where the text is split at its line feeds. -/
theorem LineAt.getElem?_splitOn (h : LineAt text n line) (hline : OneLine line) :
    (text.toList.splitOn '\n')[n]? = some line.toList := by
  obtain ⟨before, after, rfl, rfl, hc⟩ := h
  have hsingle : line.toList.splitOn '\n' = [line.toList] :=
    List.splitOn_eq_singleton fun hmem => hline '\n' hmem rfl
  have hrest : (line ++ "\n" ++ after).toList.splitOn '\n' =
      line.toList :: after.toList.splitOn '\n' := by
    have hchars : (line ++ "\n" ++ after).toList = line.toList ++ '\n' :: after.toList := by
      simp [String.toList_append]
    rw [hchars, splitOn_append_lineFeed, hsingle]
    rfl
  rcases hc with rfl | ⟨r, rfl⟩
  · rw [String.empty_append, hrest]
    rfl
  · have hchars : (r ++ "\n" ++ (line ++ "\n" ++ after)).toList =
        r.toList ++ '\n' :: (line ++ "\n" ++ after).toList := by
      simp [String.toList_append]
    have hcount : newlines (r ++ "\n") = (r.toList.splitOn '\n').length := by
      rw [length_splitOn_lineFeed, newlines_append]
      rfl
    rw [hchars, splitOn_append_lineFeed, hrest, hcount, List.getElem?_append_right (Nat.le_refl _),
      Nat.sub_self]
    rfl

/-- Lines are made of the characters of a text, without its line feeds. -/
theorem mem_of_mem_lines {s line : String} (h : line ∈ lines s) {c : Char} (hc : c ∈ line.toList) :
    c ∈ s.toList ∧ c ≠ '\n' := by
  have hclose : ∀ (cs : List Char) (c : Char), c ∈ closeLine cs → c ∈ cs := by
    intro cs c hc
    rw [closeLine.eq_def] at hc
    split at hc
    · exact List.mem_cons_of_mem _ (List.mem_reverse.mp hc)
    · exact List.mem_reverse.mp hc
  have hsplit : ∀ (cs begun : List Char), (∀ c ∈ begun, c ∈ s.toList ∧ c ≠ '\n') →
      (∀ c ∈ cs, c ∈ s.toList) → ∀ l ∈ splitLines begun cs, ∀ c ∈ l, c ∈ s.toList ∧ c ≠ '\n' := by
    intro cs
    induction cs with
    | nil =>
      intro begun hbegun _ l hl c hc
      rw [splitLines] at hl
      split at hl
      · cases hl
      · obtain rfl := List.mem_singleton.mp hl
        exact hbegun c (List.mem_reverse.mp hc)
    | cons d cs ih =>
      intro begun hbegun hcs l hl
      have hrest : ∀ c ∈ cs, c ∈ s.toList := fun c hc => hcs c (List.mem_cons_of_mem _ hc)
      rw [splitLines] at hl
      by_cases hd : d = '\n'
      · simp only [hd, beq_self_eq_true, if_true] at hl
        rcases List.mem_cons.mp hl with rfl | hl
        · exact fun c hc => hbegun c (hclose _ c hc)
        · exact ih [] (by simp) hrest l hl
      · simp only [beq_iff_eq, hd, if_false] at hl
        refine ih (d :: begun) (fun c hc => ?_) hrest l hl
        rcases List.mem_cons.mp hc with rfl | hc
        · exact ⟨hcs c List.mem_cons_self, hd⟩
        · exact hbegun c hc
  obtain ⟨cs, hcs, rfl⟩ := List.mem_map.mp h
  rw [String.toList_ofList] at hc
  exact hsplit _ [] (by simp) (fun _ h => h) cs hcs c hc

/-- Lines hold no line feeds. -/
theorem oneLine_of_mem_lines {s line : String} (h : line ∈ lines s) : OneLine line :=
  fun _ hc => (mem_of_mem_lines h hc).2

/-- Only line feeds and carriage returns get lost between lines. -/
theorem mem_lines_of_mem {s : String} {c : Char} (h : c ∈ s.toList) (hblank : isBlank c = false) :
    ∃ line ∈ lines s, c ∈ line.toList := by
  have hreturn : isBlank '\r' = true := by decide
  have hfeed : isBlank '\n' = true := by decide
  have hclose : ∀ cs : List Char, c ∈ cs → c ∈ closeLine cs := by
    intro cs hc
    rw [closeLine.eq_def]
    split
    · rcases List.mem_cons.mp hc with rfl | hc
      · rw [hreturn] at hblank
        cases hblank
      · exact List.mem_reverse.mpr hc
    · exact List.mem_reverse.mpr hc
  have hsplit : ∀ (cs begun : List Char), c ∈ begun ∨ c ∈ cs →
      ∃ l ∈ splitLines begun cs, c ∈ l := by
    intro cs
    induction cs with
    | nil =>
      intro begun hc
      have hc : c ∈ begun := by simpa using hc
      have hne : begun.isEmpty = false := by
        cases begun with
        | nil => cases hc
        | cons => rfl
      rw [splitLines, hne]
      exact ⟨begun.reverse, List.mem_singleton_self _, List.mem_reverse.mpr hc⟩
    | cons d cs ih =>
      intro begun hc
      rw [splitLines]
      by_cases hd : d = '\n'
      · simp only [hd, beq_self_eq_true, if_true]
        have hne : c ≠ d := by
          rintro rfl
          rw [hd, hfeed] at hblank
          cases hblank
        rcases hc with hc | hc
        · exact ⟨_, List.mem_cons_self, hclose _ hc⟩
        · obtain ⟨l, hl, hcl⟩ := ih [] (.inr ((List.mem_cons.mp hc).resolve_left hne))
          exact ⟨l, List.mem_cons_of_mem _ hl, hcl⟩
      · simp only [beq_iff_eq, hd, if_false]
        refine ih (d :: begun) ?_
        rcases hc with hc | hc
        · exact .inl (List.mem_cons_of_mem _ hc)
        · rcases List.mem_cons.mp hc with rfl | hc
          · exact .inl List.mem_cons_self
          · exact .inr hc
  obtain ⟨l, hl, hc⟩ := hsplit s.toList [] (.inr h)
  exact ⟨String.ofList l, List.mem_map_of_mem hl, by rwa [String.toList_ofList]⟩

end Text

open Text (LineAt Closed newlines)

namespace PreparedBodies

variable {site : BodySite}

/-- One line of a body. -/
def lineText (site : BodySite) (line : String) : String :=
  site.layout.indentText site.level ++ line

theorem layOut_cons (site : BodySite) (line : String) (lines : List String)
    (entries : List LineEntry) (t : Trace) :
    layOut site (line :: lines) entries t =
      let marked := (entries.head?.elim t fun e => t.mark e.startPc.toNat).advance 1
      (lineText site line ++ site.layout.separator ++ (layOut site lines entries.tail marked).1,
        (layOut site lines entries.tail marked).2) := by
  cases entries <;> rfl

/-- The text depends on neither the offsets nor the line on which it starts. -/
theorem text_layOut (site : BodySite) (lines : List String) (entries entries' : List LineEntry)
    (t t' : Trace) : (layOut site lines entries t).1 = (layOut site lines entries' t').1 := by
  induction lines generalizing entries entries' t t' with
  | nil => rfl
  | cons line lines ih =>
    simp only [layOut_cons]
    rw [ih]

theorem newlines_lineText (hl : site.layout.LineFed) {line : String} (hline : OneLine line) :
    newlines (lineText site line ++ "\n") = 1 := by
  have hindent : newlines (site.layout.indentText site.level) = 0 :=
    Text.newlines_eq_zero_iff.mpr (Text.within_indentText hl.indent site.level)
  rw [lineText, Text.newlines_append, Text.newlines_append, hindent,
    Text.newlines_eq_zero_iff.mpr hline]
  rfl

/-- A body is made of as many whole lines as its source. -/
theorem newlines_layOut (hl : site.layout.LineFed) {lines : List String}
    (hlines : ∀ line ∈ lines, OneLine line) (entries : List LineEntry) (t : Trace) :
    newlines (layOut site lines entries t).1 = lines.length ∧
      Closed (layOut site lines entries t).1 := by
  induction lines generalizing entries t with
  | nil => exact ⟨rfl, .inl rfl⟩
  | cons first lines ih =>
    rw [layOut_cons, hl.separator]
    obtain ⟨hcount, hclosed⟩ := ih (fun l h => hlines l (List.mem_cons_of_mem _ h)) entries.tail
      ((entries.head?.elim t fun e => t.mark e.startPc.toNat).advance 1)
    have hfirst := newlines_lineText hl (hlines first List.mem_cons_self)
    refine ⟨?_, Closed.append (.inr ⟨_, rfl⟩) hclosed⟩
    rw [Text.newlines_append, hfirst, hcount, List.length_cons, Nat.add_comm]

theorem lineAt_layOut (hl : site.layout.LineFed) {lines : List String}
    (hlines : ∀ line ∈ lines, OneLine line) (entries : List LineEntry) (t : Trace) {i : Nat}
    {line : String} (hi : lines[i]? = some line) :
    LineAt (layOut site lines entries t).1 i (lineText site line) := by
  induction lines generalizing entries t i with
  | nil => cases hi
  | cons first lines ih =>
    rw [layOut_cons, hl.separator]
    cases i with
    | zero =>
      obtain rfl := Option.some.inj hi
      exact ⟨"", _, (String.empty_append).symm, rfl, .inl rfl⟩
    | succ i =>
      have hone := newlines_lineText hl (hlines first List.mem_cons_self)
      have hrest := ih (fun l h => hlines l (List.mem_cons_of_mem _ h)) entries.tail
        ((entries.head?.elim t fun e => t.mark e.startPc.toNat).advance 1) hi
      have hplaced := hrest.prepend (s := lineText site first ++ "\n") (.inr ⟨_, rfl⟩)
      rw [hone, Nat.add_comm] at hplaced
      exact hplaced

/-- An offset keeps its line, and a new one gets that of its first entry. -/
theorem offsets_layOut (site : BodySite) (lines : List String) (entries : List LineEntry)
    {t : Trace} (ht : t.offsets.Ascending) :
    (∀ j n, t.offsets.find? j = some n →
        (layOut site lines entries t).2.offsets.find? j = some n) ∧
      ∀ i e, i < lines.length → entries[i]? = some e →
        (∀ d ∈ entries.take i, d.startPc ≠ e.startPc) →
        t.offsets.find? e.startPc.toNat = none →
        (layOut site lines entries t).2.offsets.find? e.startPc.toNat = some (t.line + i) := by
  induction lines generalizing entries t with
  | nil => exact ⟨fun _ _ h => h, fun _ _ hi => absurd hi (Nat.not_lt_zero _)⟩
  | cons line lines ih =>
    rw [layOut_cons]
    cases entries with
    | nil =>
      have hrest := ih [] (t := t.advance 1) ht
      exact ⟨hrest.1, fun _ _ _ he => by simp at he⟩
    | cons d entries =>
      have hmarked : (t.mark d.startPc.toNat).offsets.Ascending := ht.alter _ _
      have hfind : ∀ j, (t.mark d.startPc.toNat).offsets.find? j =
          if j = d.startPc.toNat then some ((t.offsets.find? d.startPc.toNat).getD t.line)
          else t.offsets.find? j := fun j => ht.find?_alter _ _ j
      obtain ⟨hkeeps, hnew⟩ := ih entries (t := (t.mark d.startPc.toNat).advance 1) hmarked
      refine ⟨fun j n hj => hkeeps j n ?_, fun i e hi he hfirst hnone => ?_⟩
      · change (t.mark d.startPc.toNat).offsets.find? j = some n
        rw [hfind]
        split
        · next heq => rw [← heq, hj, Option.getD_some]
        · exact hj
      · cases i with
        | zero =>
          obtain rfl := Option.some.inj he
          refine hkeeps _ _ ?_
          change (t.mark d.startPc.toNat).offsets.find? d.startPc.toNat = _
          rw [hfind, if_pos rfl, hnone]
          rfl
        | succ i =>
          have hne : e.startPc.toNat ≠ d.startPc.toNat := by
            intro heq
            exact hfirst d List.mem_cons_self (UInt32.toNat_inj.mp heq).symm
          have hnone' : ((t.mark d.startPc.toNat).advance 1).offsets.find? e.startPc.toNat =
              none := by
            change (t.mark d.startPc.toNat).offsets.find? e.startPc.toNat = none
            rw [hfind, if_neg hne, hnone]
          have hplaced := hnew i e (Nat.lt_of_succ_lt_succ hi) he
            (fun c hc => hfirst c (List.mem_cons_of_mem _ hc)) hnone'
          refine hplaced.trans (congrArg some ?_)
          change t.line + 1 + i = t.line + (i + 1)
          omega

/-- An offset that is mapped was so before, or is that of an entry beside a line of the body. -/
theorem entry_of_find?_layOut {site : BodySite} {lines : List String} {entries : List LineEntry}
    {t : Trace} (ht : t.offsets.Ascending) {j n : Nat}
    (h : (layOut site lines entries t).2.offsets.find? j = some n) :
    t.offsets.find? j = some n ∨
      t.offsets.find? j = none ∧ ∃ i e, i < lines.length ∧ entries[i]? = some e ∧
        e.startPc.toNat = j ∧ (∀ d ∈ entries.take i, d.startPc ≠ e.startPc) ∧ n = t.line + i := by
  induction lines generalizing entries t with
  | nil => exact .inl h
  | cons line lines ih =>
    rw [layOut_cons] at h
    cases entries with
    | nil =>
      rcases ih (t := t.advance 1) ht h with hold | ⟨_, i, e, _, he, _⟩
      · exact .inl hold
      · simp at he
    | cons d entries =>
      have hfind : ∀ j, ((t.mark d.startPc.toNat).advance 1).offsets.find? j =
          if j = d.startPc.toNat then some ((t.offsets.find? d.startPc.toNat).getD t.line)
          else t.offsets.find? j := fun j => ht.find?_alter _ _ j
      have hrest := ih (t := (t.mark d.startPc.toNat).advance 1)
        (ht.alter _ _) h
      rw [hfind] at hrest
      by_cases hj : j = d.startPc.toNat
      · rw [if_pos hj] at hrest
        rcases hrest with hnew | ⟨hnone, _⟩
        · subst hj
          cases hold : t.offsets.find? d.startPc.toNat with
          | some m =>
            rw [hold] at hnew
            exact .inl hnew
          | none =>
            rw [hold] at hnew
            exact .inr ⟨rfl, 0, d, Nat.zero_lt_succ _, rfl, rfl, List.forall_mem_nil _,
              (Option.some.inj hnew).symm⟩
        · cases hnone
      · rw [if_neg hj] at hrest
        rcases hrest with hold | ⟨hnone, i, e, hi, he, heq, hfirst, hn⟩
        · exact .inl hold
        · refine .inr ⟨hnone, i + 1, e, Nat.succ_lt_succ hi, he, heq, fun c hc => ?_, ?_⟩
          · rcases List.mem_cons.mp hc with rfl | hc
            · exact fun hpc => hj (heq.symm.trans (congrArg UInt32.toNat hpc.symm))
            · exact hfirst c hc
          · change n = t.line + 1 + i at hn
            omega

/-- A source with anything in it makes a text with something in it. -/
theorem isBlankText_layOut {source : String} (h : Text.isBlankText source = false)
    (entries : List LineEntry) (t : Trace) :
    Text.isBlankText (layOut site (Text.lines source) entries t).1 = false := by
  have hsome : ∀ (lines : List String) (entries : List LineEntry) (t : Trace) (c : Char),
      (∃ line ∈ lines, c ∈ line.toList) → c ∈ (layOut site lines entries t).1.toList := by
    intro lines
    induction lines with
    | nil => rintro _ _ _ ⟨_, h, _⟩; cases h
    | cons first lines ih =>
      rintro entries t c ⟨line, hline, hc⟩
      rw [layOut_cons]
      simp only [lineText, String.toList_append, List.mem_append]
      rcases List.mem_cons.mp hline with rfl | hline
      · exact .inl (.inl (.inr hc))
      · exact .inr (ih _ _ c ⟨line, hline, hc⟩)
  rw [Text.isBlankText, List.all_eq_false] at h ⊢
  obtain ⟨c, hc, hblank⟩ := h
  have hline := Text.mem_lines_of_mem hc (Bool.eq_false_iff.mpr hblank)
  exact ⟨c, hsome _ entries t c hline, hblank⟩

end PreparedBodies

end ClassSketch
