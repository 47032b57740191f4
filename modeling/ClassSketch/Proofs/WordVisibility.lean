import ClassSketch.Proofs.ModifierSteps

/-! Visibility comes from the metadata word. It is read twice, once from the field itself and once
among the tests for all modifiers, of which one looks for internal. The two readings agree, so
whatever visibility stood in a set, one is left. -/

namespace ClassSketch

/-- What a number in the field for visibility stands for. Four is private to an instance. -/
inductive VisibilityCode : Nat → Modifier → Prop where
  | internal : VisibilityCode 0 .internal
  | private_ : VisibilityCode 1 .private_
  | privateToThis : VisibilityCode 4 .private_
  | protected_ : VisibilityCode 2 .protected_
  | other {n : Nat} (h : n ∉ [0, 1, 2, 4]) : VisibilityCode n .public_

def Visibility.modifier : Visibility → Modifier
  | internal => .internal
  | private_ => .private_
  | protected_ => .protected_
  | public_ => .public_

theorem visibilityCode_modifier (w : MetadataWord) :
    VisibilityCode (w.bits.toNat / 2 % 8) w.visibility.modifier := by
  have hread : BitField.visibility.read w = w.bits.toNat / 2 % 8 := BitField.read_eq _ w
  rw [← hread, MetadataWord.visibility]
  generalize BitField.visibility.read w = n
  split
  · exact .internal
  · exact .private_
  · exact .privateToThis
  · exact .protected_
  · exact .other (by simp_all)

namespace VisibilityCode

variable {n : Nat} {v : Modifier}

theorem mem_visibilities (h : VisibilityCode n v) : v ∈ ModifierSet.visibilities := by
  cases h <;> decide

theorem eq_internal (h : VisibilityCode 0 v) : v = .internal := by
  cases h with
  | internal => rfl
  | other h => exact absurd List.mem_cons_self h

end VisibilityCode

/-- Of the visibilities only internal has a test on words, the one that the field is zero. -/
theorem Modifier.NotedIn.eq_of_visibilityCode {u v : Modifier} {w : MetadataWord}
    (hnoted : u.NotedIn w) (hu : u ∈ ModifierSet.visibilities)
    (hv : VisibilityCode (w.bits.toNat / 2 % 8) v) : u = v := by
  obtain ⟨t, htest, hfield⟩ := hnoted
  simp only [ModifierSet.visibilities, List.mem_cons, List.not_mem_nil, or_false] at hu
  rcases hu with rfl | rfl | rfl | rfl
  · cases htest
  · cases htest
  · cases htest
  · cases htest
    rw [show w.bits.toNat / 2 % 8 = 0 from hfield] at hv
    exact hv.eq_internal.symm

namespace ModifierSet

theorem has_foldl_erase (ms : List Modifier) (s : ModifierSet) (m : Modifier) :
    (ms.foldl erase s).has m = true ↔ s.has m = true ∧ m ∉ ms := by
  induction ms generalizing s with
  | nil => simp
  | cons m' ms ih =>
    rw [List.foldl_cons, ih, erase]
    simp only [Bool.and_eq_true, bne_iff_ne, List.mem_cons, not_or]
    tauto

theorem has_withWord (s : ModifierSet) (w : MetadataWord) (o : Owner) (m : Modifier) :
    (s.withWord w o).has m = true ↔ (o.Above m.owner ∧ m.NotedIn w) ∨
      m = w.visibility.modifier ∨ s.has m = true ∧ m ∉ visibilities := by
  have hsteps : s.withWord w o = ModifierStep.apply (ModifierStep.apply (visibilities.foldl erase s)
      (.insert w.visibility.modifier)) (.readWord w o) := by
    rw [withWord]
    cases w.visibility <;> rfl
  rw [hsteps, ModifierStep.has_apply, ModifierStep.has_apply, has_foldl_erase]
  simp only [ModifierStep.Adds, ModifierStep.Removes, not_false_eq_true, and_true]

/-- Whatever stood in the set, the word leaves one visibility, the one that its field stands for.
Of the other modifiers all stay, and those are added that the word notes for the declaration. -/
theorem visibility_settled_by_word (s : ModifierSet) (w : MetadataWord) (o : Owner) :
    ∃ v ∈ visibilities, VisibilityCode (w.bits.toNat / 2 % 8) v ∧
      (∀ u ∈ visibilities, (s.withWord w o).has u = true ↔ u = v) ∧
      ∀ m, m ∉ visibilities →
        ((s.withWord w o).has m = true ↔ s.has m = true ∨ o.Above m.owner ∧ m.NotedIn w) := by
  have hcode := visibilityCode_modifier w
  refine ⟨w.visibility.modifier, hcode.mem_visibilities, hcode, fun u hu => ?_, fun m hm => ?_⟩
  · rw [has_withWord]
    constructor
    -- the second reading can add a visibility too, but only the one that is there
    · rintro (⟨-, hnoted⟩ | heq | ⟨-, hout⟩)
      · exact hnoted.eq_of_visibilityCode hu hcode
      · exact heq
      · exact absurd hu hout
    · exact fun heq => .inr (.inl heq)
  · have hne : m ≠ w.visibility.modifier := fun heq => hm (heq ▸ hcode.mem_visibilities)
    rw [has_withWord, or_iff_right hne, and_iff_left hm, or_comm]

/-- A variable that the metadata calls public, over a field that is private and final. -/
def publicVariable : ModifierSet := withWord (.ofAccess ⟨0x12⟩ .property) ⟨0x206⟩ .property

theorem public_variable_not_private :
    publicVariable.has .public_ = true ∧ publicVariable.has .private_ = false ∧
      publicVariable.has .final = true ∧ publicVariable.has .var = true := by
  obtain ⟨v, -, hcode, hone, hrest⟩ :=
    visibility_settled_by_word (.ofAccess ⟨0x12⟩ .property) ⟨0x206⟩ .property
  have hcode : VisibilityCode 3 v := hcode
  obtain rfl : .public_ = v := by
    cases hcode
    rfl
  have hprivate : ¬ publicVariable.has .private_ = true :=
    fun h => absurd ((hone .private_ (by decide)).mp h) (by decide)
  have hvar : Modifier.NotedIn ⟨0x206⟩ .var := Modifier.inWord_iff.mp (by decide)
  exact ⟨(hone .public_ (by decide)).mpr rfl, Bool.eq_false_iff.mpr hprivate,
    (hrest .final (by decide)).mpr (.inl (by decide)),
    (hrest .var (by decide)).mpr (.inr ⟨.refl, hvar⟩)⟩

end ModifierSet

end ClassSketch
