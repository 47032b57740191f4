import ClassSketch.Table
import Mathlib.Data.List.Sort

/-! What a table holds after an entry was altered or added, or after it absorbed another table. Only
a table that ascends finds what it held before. Of entries with one key the last one counts.
Sorting by keys is insertion. -/

namespace ClassSketch

section Sorting

variable {α κ : Type} [LT κ] [LE κ] [DecidableLT κ] [Std.IsLinearOrder κ] [Std.LawfulOrderLT κ]
  (key : α → κ)

theorem not_key_lt_iff {a b : α} : (!decide (key b < key a)) = true ↔ key a ≤ key b := by
  rw [Bool.not_eq_true', decide_eq_false_iff_not, Std.not_lt]

theorem not_key_lt_trans (a b c : α) (hab : (!decide (key b < key a)) = true)
    (hbc : (!decide (key c < key b)) = true) : (!decide (key c < key a)) = true := by
  rw [not_key_lt_iff] at *
  exact Std.le_trans hab hbc

theorem not_key_lt_total (a b : α) :
    (!decide (key b < key a) || !decide (key a < key b)) = true := by
  rw [Bool.or_eq_true, not_key_lt_iff, not_key_lt_iff]
  exact Std.le_total

theorem pairwise_sortByKey (xs : List α) :
    (sortByKey key xs).Pairwise fun a b => key a ≤ key b := by
  have h := List.pairwise_mergeSort (not_key_lt_trans key) (not_key_lt_total key) xs
  exact h.imp (not_key_lt_iff key).mp

theorem sortByKey_of_pairwise {xs : List α} (h : xs.Pairwise fun a b => key a ≤ key b) :
    sortByKey key xs = xs :=
  List.mergeSort_of_pairwise (h.imp (not_key_lt_iff key).mpr)

theorem orderedInsert_append {a : α} {smaller rest : List α}
    (hsmaller : ∀ b ∈ smaller, key b < key a) (hrest : ∀ b ∈ rest, key a ≤ key b) :
    (smaller ++ rest).orderedInsert (fun a b => ¬ key b < key a) a = smaller ++ a :: rest := by
  induction smaller with
  | nil =>
    cases rest with
    | nil => rfl
    | cons b rest =>
      exact List.orderedInsert_cons_of_le _ _ (Std.not_lt.mpr (hrest b List.mem_cons_self))
  | cons b smaller ih =>
    have hb := hsmaller b List.mem_cons_self
    rw [List.cons_append, List.orderedInsert_of_not_le _ _ (not_not_intro hb),
      ih fun c hc => hsmaller c (List.mem_cons_of_mem _ hc), List.cons_append]

/-- Sorting puts in one item after the other, the last one first. In this form it computes. -/
theorem sortByKey_eq_insertionSort (xs : List α) :
    sortByKey key xs = xs.insertionSort fun a b => ¬ key b < key a := by
  induction xs with
  | nil => exact List.mergeSort_nil
  | cons a xs ih =>
    obtain ⟨smaller, rest, hcons, hxs, hsmaller⟩ :=
      List.mergeSort_cons (not_key_lt_trans key) (not_key_lt_total key) a xs
    have hrest : ∀ b ∈ rest, key a ≤ key b := by
      have h := pairwise_sortByKey key (a :: xs)
      rw [sortByKey, hcons, List.pairwise_append, List.pairwise_cons] at h
      exact h.2.1.1
    rw [List.insertionSort_cons, ← ih, sortByKey, sortByKey, hcons, hxs]
    exact (orderedInsert_append key (by simpa using hsmaller) hrest).symm

end Sorting

theorem perm_sortByKey {α κ : Type} [LT κ] [DecidableLT κ] (key : α → κ) (xs : List α) :
    (sortByKey key xs).Perm xs :=
  List.mergeSort_perm _ _

namespace Table

variable {κ α β : Type}

def Ascending [LT κ] (t : Table κ α) : Prop := t.Pairwise fun a b => a.1 < b.1

theorem Ascending.mapValues [LT κ] {t : Table κ α} (h : t.Ascending) (f : α → β) :
    (t.mapValues f).Ascending :=
  List.pairwise_map.mpr h

variable [DecidableEq κ]

theorem find?_cons (k : κ) (a : α) (t : Table κ α) (j : κ) :
    find? ((k, a) :: t) j = if j = k then some a else t.find? j := by
  rw [find?, List.lookup_cons]
  by_cases h : j = k
  · simp [h]
  · rw [if_neg h, beq_false_of_ne h, find?]

theorem find?_self (e : κ × α) (t : Table κ α) : find? (e :: t) e.1 = some e.2 := by
  rw [find?_cons, if_pos rfl]

theorem find?_mapValues (f : α → β) (t : Table κ α) (j : κ) :
    (t.mapValues f).find? j = (t.find? j).map f := by
  induction t with
  | nil => rfl
  | cons e t ih =>
    rw [mapValues] at ih ⊢
    rw [List.map_cons, find?_cons, find?_cons, ih]
    split <;> rfl

theorem find?_filter_ne (t : Table κ α) (k j : κ) :
    find? (t.filter fun e => e.1 != k) j = if j = k then none else t.find? j := by
  induction t with
  | nil => simp [find?]
  | cons e t ih =>
    by_cases he : e.1 = k
    · have hdrop : (e :: t).filter (fun e => e.1 != k) = t.filter fun e => e.1 != k := by
        simp [he]
      rw [hdrop, ih, find?_cons, he]
      split <;> rfl
    · have hkeep : (e :: t).filter (fun e => e.1 != k) = e :: t.filter fun e => e.1 != k := by
        simp [he]
      rw [hkeep, find?_cons, find?_cons, ih]
      by_cases hj : j = e.1
      · rw [if_pos hj, if_pos hj, if_neg fun hk => he (hj ▸ hk)]
      · rw [if_neg hj, if_neg hj]

theorem mem_of_find? {t : Table κ α} {k : κ} {a : α} (h : t.find? k = some a) : (k, a) ∈ t := by
  obtain ⟨before, after, rfl, _⟩ := List.lookup_eq_some_iff.mp h
  simp

theorem mem_keys_iff {t : Table κ α} {k : κ} : k ∈ t.keys ↔ ∃ a, t.find? k = some a := by
  induction t with
  | nil => simp [keys, find?]
  | cons e t ih =>
    rw [find?_cons, keys, List.map_cons, List.mem_cons]
    rw [keys] at ih
    by_cases hk : k = e.1
    · simp [hk]
    · simp [hk, ih]

variable [LT κ]

theorem Ascending.find?_tail [Std.Irrefl (α := κ) (· < ·)] {e : κ × α} {t : Table κ α}
    (h : Ascending (e :: t)) : t.find? e.1 = none := by
  rw [find?, List.lookup_eq_none_iff]
  intro d hd
  rw [bne_iff_ne]
  intro heq
  exact Std.lt_irrefl (heq ▸ (List.pairwise_cons.mp h).1 d hd)

theorem Ascending.find?_eq_some_iff [Std.Irrefl (α := κ) (· < ·)] {t : Table κ α}
    (h : t.Ascending) {k : κ} {a : α} : t.find? k = some a ↔ (k, a) ∈ t := by
  refine ⟨mem_of_find?, fun hmem => ?_⟩
  induction t with
  | nil => cases hmem
  | cons e t ih =>
    obtain ⟨hlt, ht⟩ := List.pairwise_cons.mp h
    rcases List.mem_cons.mp hmem with rfl | hmem
    · exact find?_self _ _
    · have hne : k ≠ e.1 := by
        rintro rfl
        exact Std.lt_irrefl (hlt (e.1, a) hmem)
      rw [find?_cons, if_neg hne]
      exact ih ht hmem

theorem Ascending.key_eq [Std.Irrefl (α := κ) (· < ·)]
    [Trans (α := κ) (· < ·) (· < ·) (· < ·)] {d e : κ × α} {t u : Table κ α}
    (ht : Ascending (d :: t)) (hu : Ascending (e :: u))
    (h : ∀ k, find? (d :: t) k = find? (e :: u) k) : d.1 = e.1 := by
  refine Decidable.byContradiction fun hne => ?_
  have hde : (d.1, d.2) ∈ e :: u := mem_of_find? ((h d.1).symm.trans (find?_self d t))
  have hed : (e.1, e.2) ∈ d :: t := mem_of_find? ((h e.1).trans (find?_self e u))
  rcases List.mem_cons.mp hde with heq | hmem
  · exact hne (congrArg Prod.fst heq)
  · rcases List.mem_cons.mp hed with heq | hmem'
    · exact hne (congrArg Prod.fst heq).symm
    · have hlt := (List.pairwise_cons.mp hu).1 _ hmem
      have hgt := (List.pairwise_cons.mp ht).1 _ hmem'
      exact Std.lt_irrefl (Std.lt_trans hlt hgt)

/-- An ascending table is known by what it finds. -/
theorem Ascending.ext [Std.Irrefl (α := κ) (· < ·)]
    [Trans (α := κ) (· < ·) (· < ·) (· < ·)] {t u : Table κ α} (ht : t.Ascending)
    (hu : u.Ascending) (h : ∀ k, t.find? k = u.find? k) : t = u := by
  induction t generalizing u with
  | nil =>
    cases u with
    | nil => rfl
    | cons e u => cases (h e.1).trans (find?_self e u)
  | cons d t ih =>
    cases u with
    | nil => cases (h d.1).symm.trans (find?_self d t)
    | cons e u =>
      have hkey : d.1 = e.1 := ht.key_eq hu h
      have hvalue : some d.2 = some e.2 := by
        rw [← find?_self d t, ← find?_self e u, ← hkey, h]
      have htail : ∀ k, find? t k = find? u k := by
        intro k
        by_cases hk : k = d.1
        · rw [hk, ht.find?_tail, hkey, hu.find?_tail]
        · have hfind := h k
          rwa [find?_cons, find?_cons, if_neg hk, if_neg (hkey ▸ hk)] at hfind
      rw [Prod.ext hkey (Option.some.inj hvalue),
        ih (List.pairwise_cons.mp ht).2 (List.pairwise_cons.mp hu).2 htail]

variable [DecidableLT κ]

theorem mem_alter {k : κ} {f : Option α → α} {t : Table κ α} {e : κ × α} (h : e ∈ t.alter k f) :
    e ∈ t ∨ e = (k, f none) ∨ ∃ a, (k, a) ∈ t ∧ e = (k, f (some a)) := by
  induction t with
  | nil => exact .inr (.inl (List.mem_singleton.mp h))
  | cons d t ih =>
    obtain ⟨j, a⟩ := d
    rw [alter] at h
    split at h
    · rcases List.mem_cons.mp h with rfl | h
      · exact .inr (.inl rfl)
      · exact .inl h
    · split at h
      · next heq =>
        subst heq
        rcases List.mem_cons.mp h with rfl | h
        · exact .inr (.inr ⟨a, List.mem_cons_self, rfl⟩)
        · exact .inl (List.mem_cons_of_mem _ h)
      · rcases List.mem_cons.mp h with rfl | h
        · exact .inl List.mem_cons_self
        · rcases ih h with h | h | ⟨a, ha, h⟩
          · exact .inl (List.mem_cons_of_mem _ h)
          · exact .inr (.inl h)
          · exact .inr (.inr ⟨a, List.mem_cons_of_mem _ ha, h⟩)

theorem key_of_mem_alter {k : κ} {f : Option α → α} {t : Table κ α} {e : κ × α}
    (h : e ∈ t.alter k f) : e.1 = k ∨ ∃ d ∈ t, d.1 = e.1 := by
  rcases mem_alter h with h | h | ⟨_, _, h⟩
  · exact .inr ⟨e, h, rfl⟩
  · exact .inl (congrArg Prod.fst h)
  · exact .inl (congrArg Prod.fst h)

/-- A table takes over entries of another one, and nothing else. -/
theorem mem_absorb {t other : Table κ α} {e : κ × α} (h : e ∈ t.absorb other) :
    e ∈ t ∨ e ∈ other := by
  induction other generalizing t with
  | nil => exact .inl h
  | cons d other ih =>
    rcases ih h with h | h
    · rcases mem_alter h with h | rfl | ⟨a, ha, rfl⟩
      · exact .inl h
      · exact .inr List.mem_cons_self
      · exact .inl ha
    · exact .inr (List.mem_cons_of_mem _ h)

theorem forall_values_alter {P : α → Prop} {t : Table κ α} (h : ∀ e ∈ t, P e.2) (k : κ)
    {f : Option α → α} (hnone : P (f none)) (hsome : ∀ a, P a → P (f (some a))) :
    ∀ e ∈ t.alter k f, P e.2 := by
  intro e he
  rcases mem_alter he with he | rfl | ⟨a, ha, rfl⟩
  · exact h e he
  · exact hnone
  · exact hsome a (h _ ha)

theorem forall_values_absorb {P : α → Prop} {t other : Table κ α} (h : ∀ e ∈ t, P e.2)
    (hother : ∀ e ∈ other, P e.2) : ∀ e ∈ t.absorb other, P e.2 :=
  fun e he => (mem_absorb he).elim (h e) (hother e)

theorem forall_keys_alter {P : κ → Prop} {t : Table κ α} (h : ∀ e ∈ t, P e.1) {k : κ} (hk : P k)
    (f : Option α → α) : ∀ e ∈ t.alter k f, P e.1 := by
  intro e he
  rcases key_of_mem_alter he with heq | ⟨d, hd, heq⟩
  · exact heq ▸ hk
  · exact heq ▸ h d hd

theorem forall_keys_absorb {P : κ → Prop} {t other : Table κ α} (h : ∀ e ∈ t, P e.1)
    (hother : ∀ e ∈ other, P e.1) : ∀ e ∈ t.absorb other, P e.1 :=
  fun e he => (mem_absorb he).elim (h e) (hother e)

variable [Trans (α := κ) (· < ·) (· < ·) (· < ·)]

theorem Ascending.find?_alter [Std.Irrefl (α := κ) (· < ·)] {t : Table κ α} (h : t.Ascending)
    (k : κ) (f : Option α → α) (j : κ) :
    (t.alter k f).find? j = if j = k then some (f (t.find? k)) else t.find? j := by
  induction t with
  | nil => exact find?_cons k _ [] j
  | cons d t ih =>
    obtain ⟨hd, ht⟩ := List.pairwise_cons.mp h
    rw [Table.alter]
    by_cases hlt : k < d.1
    · have hnone : find? (d :: t) k = none := by
        rw [find?, List.lookup_eq_none_iff]
        intro e he
        have hk : k < e.1 := by
          rcases List.mem_cons.mp he with rfl | he
          · exact hlt
          · exact Std.lt_trans hlt (hd e he)
        rw [bne_iff_ne]
        rintro rfl
        exact Std.lt_irrefl hk
      rw [if_pos hlt, find?_cons, hnone]
    · by_cases heq : k = d.1
      · rw [if_neg hlt, if_pos heq, find?_cons, find?_cons, if_pos heq, find?_cons, heq]
        split <;> rfl
      · rw [if_neg hlt, if_neg heq, find?_cons, find?_cons, find?_cons, if_neg heq, ih ht]
        by_cases hj : j = d.1
        · rw [if_pos hj, if_pos hj, if_neg fun hk => heq (hk.symm.trans hj)]
        · rw [if_neg hj, if_neg hj]

theorem Ascending.find?_insertNew [Std.Irrefl (α := κ) (· < ·)] {t : Table κ α} (h : t.Ascending)
    (k : κ) (a : α) (j : κ) :
    (t.insertNew k a).find? j = (t.find? j).or (if j = k then some a else none) := by
  rw [insertNew, h.find?_alter]
  by_cases hj : j = k
  · subst hj
    cases t.find? j <;> simp
  · simp [hj]

variable [Std.Trichotomous (α := κ) (· < ·)]

theorem Ascending.alter {t : Table κ α} (h : t.Ascending) (k : κ) (f : Option α → α) :
    (t.alter k f).Ascending := by
  induction t with
  | nil => exact List.pairwise_singleton _ _
  | cons d t ih =>
    obtain ⟨hd, ht⟩ := List.pairwise_cons.mp h
    rw [Table.alter]
    by_cases hlt : k < d.1
    · rw [if_pos hlt]
      refine List.pairwise_cons.mpr ⟨fun e he => ?_, h⟩
      rcases List.mem_cons.mp he with rfl | he
      · exact hlt
      · exact Std.lt_trans hlt (hd e he)
    · by_cases heq : k = d.1
      · rw [if_neg hlt, if_pos heq]
        exact List.pairwise_cons.mpr ⟨hd, ht⟩
      · rw [if_neg hlt, if_neg heq]
        refine List.pairwise_cons.mpr ⟨fun e he => ?_, ih ht⟩
        rcases key_of_mem_alter he with hk | ⟨c, hc, hk⟩
        · have hgt : d.1 < k := Decidable.byContradiction fun hgt =>
            heq (Std.Trichotomous.trichotomous k d.1 hlt hgt)
          rw [hk]
          exact hgt
        · rw [← hk]
          exact hd c hc

theorem Ascending.absorb {t : Table κ α} (h : t.Ascending) (other : Table κ α) :
    (t.absorb other).Ascending := by
  induction other generalizing t with
  | nil => exact h
  | cons e other ih => exact ih (h.alter e.1 _)

theorem Ascending.foldl_insert {t : Table κ α} (h : t.Ascending) (es : List (κ × α)) :
    (es.foldl (fun t (k, a) => t.insert k a) t).Ascending := by
  induction es generalizing t with
  | nil => exact h
  | cons e es ih => exact ih (h.alter e.1 _)

theorem ascending_ofEntries (es : List (κ × α)) : (ofEntries es).Ascending :=
  Ascending.foldl_insert List.Pairwise.nil es

/-- What was there first stays. -/
theorem Ascending.find?_absorb [Std.Irrefl (α := κ) (· < ·)] {t : Table κ α} (h : t.Ascending)
    (other : Table κ α) (j : κ) :
    (t.absorb other).find? j = (t.find? j).or (other.find? j) := by
  induction other generalizing t with
  | nil => exact (Option.or_none).symm
  | cons e other ih =>
    have hrest := ih (h.alter e.1 fun old => old.getD e.2)
    rw [Table.absorb, List.foldl_cons]
    refine hrest.trans ?_
    rw [h.find?_alter, find?_cons]
    by_cases hj : j = e.1
    · subst hj
      cases ht : t.find? e.1 <;> simp
    · rw [if_neg hj, if_neg hj]

theorem Ascending.find?_foldl_insert [Std.Irrefl (α := κ) (· < ·)] {t : Table κ α}
    (h : t.Ascending) (es : List (κ × α)) (k : κ) :
    (es.foldl (fun t (k, a) => t.insert k a) t).find? k =
      (es.reverse.lookup k).or (t.find? k) := by
  induction es generalizing t with
  | nil => rfl
  | cons e es ih =>
    have hrest := ih (h.alter e.1 fun _ => e.2)
    rw [List.foldl_cons, List.reverse_cons, List.lookup_append, Option.or_assoc]
    refine hrest.trans (congrArg _ ?_)
    rw [h.find?_alter, List.lookup_cons]
    by_cases hk : k = e.1
    · simp [hk]
    · rw [if_neg hk, beq_false_of_ne hk]
      rfl

theorem find?_ofEntries [Std.Irrefl (α := κ) (· < ·)] (es : List (κ × α)) (k : κ) :
    (ofEntries es).find? k = es.reverse.lookup k := by
  rw [ofEntries, Ascending.find?_foldl_insert List.Pairwise.nil]
  exact Option.or_none

end Table

end ClassSketch
