import ClassSketch.Class.Modifier
import Mathlib.Algebra.Ring.Nat
import Mathlib.Data.List.Basic
import Mathlib.Data.List.Induction
import Mathlib.Logic.Relation

/-! Sets of modifiers under any sequence of changes. A modifier is left if a step added it and no
later step took it away. What a declaration shows depends on the modifiers that are left and on
nothing else: those of the groups above it that have a keyword, in a fixed order. A set can be kept
in a word, with a bit for each modifier. -/

namespace ClassSketch

namespace Owner

/-- A group is above a declaration if steps from kinds to their parents lead to it. -/
abbrev Above : Owner → Owner → Prop := Relation.ReflTransGen fun o p => p ∈ o.parents

/-- How many steps lead up from a declaration at most. -/
def height : Owner → Nat
  | hasAnnotations | visibility | modality | typeParameter | type => 0
  | member | valueParameter | typeAlias => 1
  | class_ | constructor_ | function | property | propertyAccessor => 2

theorem height_lt_of_mem_parents {o p : Owner} (h : p ∈ o.parents) : p.height < o.height := by
  have hall : ∀ p ∈ o.parents, p.height < o.height := by cases o <;> decide
  exact hall p h

theorem above_of_ownsWithin {n : Nat} {o group : Owner} (h : ownsWithin n o group = true) :
    o.Above group := by
  induction n generalizing o with
  | zero =>
    rw [ownsWithin, beq_iff_eq] at h
    exact h ▸ .refl
  | succ n ih =>
    rw [ownsWithin, Bool.or_eq_true, beq_iff_eq, List.any_eq_true] at h
    rcases h with rfl | ⟨p, hp, howns⟩
    · exact .refl
    · exact .head hp (ih howns)

/-- Looking up as many steps as a declaration is high finds every group above it. -/
theorem ownsWithin_of_above {o group : Owner} (h : o.Above group) {n : Nat} (hn : o.height ≤ n) :
    ownsWithin n o group = true := by
  -- from the declaration upwards: each step lowers the height, so the count of steps suffices
  induction h using Relation.ReflTransGen.head_induction_on generalizing n with
  | refl => cases n <;> simp [ownsWithin]
  | head hp _ ih =>
    have hlt := height_lt_of_mem_parents hp
    obtain ⟨k, rfl⟩ : ∃ k, n = k + 1 := ⟨n - 1, by omega⟩
    rw [ownsWithin, Bool.or_eq_true, List.any_eq_true]
    exact .inr ⟨_, hp, ih (by omega)⟩

theorem owns_iff {o group : Owner} : o.owns group = true ↔ o.Above group := by
  have hheight : o.height ≤ 3 := by cases o <;> decide
  exact ⟨above_of_ownsWithin, fun h => ownsWithin_of_above h hheight⟩

end Owner

namespace BitField

theorem toNat_mask (width : Nat) :
    ((1#32 <<< width) - 1#32).toNat = 2 ^ min width 32 - 1 := by
  rw [BitVec.toNat_sub, BitVec.toNat_shiftLeft, BitVec.toNat_one (by decide), Nat.one_shiftLeft]
  rcases Nat.lt_or_ge width 32 with hwidth | hwidth
  · have hpow : 2 ^ width < 2 ^ 32 := Nat.pow_lt_pow_right (by decide) hwidth
    have hpos : 0 < 2 ^ width := Nat.two_pow_pos _
    rw [Nat.min_eq_left (Nat.le_of_lt hwidth)]
    omega
  · rw [Nat.min_eq_right hwidth, Nat.mod_eq_zero_of_dvd (Nat.pow_dvd_pow 2 hwidth)]
    decide

/-- A field as a number, also where it is wider than the word. -/
theorem read_eq (f : BitField) (w : MetadataWord) :
    f.read w = w.bits.toNat / 2 ^ f.shift % 2 ^ f.width := by
  rw [read, BitVec.toNat_and, BitVec.toNat_ushiftRight, Nat.shiftRight_eq_div_pow, toNat_mask,
    Nat.and_two_pow_sub_one_eq_mod]
  rcases Nat.lt_or_ge f.width 32 with hwidth | hwidth
  · rw [Nat.min_eq_left (Nat.le_of_lt hwidth)]
  · have hsmall : w.bits.toNat / 2 ^ f.shift < 2 ^ 32 :=
      Nat.lt_of_le_of_lt (Nat.div_le_self _ _) w.bits.isLt
    have hwide : 2 ^ 32 ≤ 2 ^ f.width := Nat.pow_le_pow_right (by decide) hwidth
    rw [Nat.min_eq_right hwidth, Nat.mod_eq_of_lt hsmall,
      Nat.mod_eq_of_lt (Nat.lt_of_lt_of_le hsmall hwide)]

end BitField

theorem AccessFlags.has_iff {a flag : AccessFlags} :
    a.has flag = true ↔ ∀ i, flag.bits.getLsbD i = true → a.bits.getLsbD i = true := by
  rw [has, beq_iff_eq]
  constructor
  · intro h i hi
    rw [← h, BitVec.getLsbD_and, Bool.and_eq_true] at hi
    exact hi.1
  · intro h
    refine BitVec.eq_of_getLsbD_eq fun i _ => ?_
    rw [BitVec.getLsbD_and]
    cases hi : flag.bits.getLsbD i with
    | false => exact Bool.and_false _
    | true => rw [h i hi, Bool.true_and]

namespace Modifier

/-- The modifier is found among access flags: all bits of its flag are set. -/
def FlaggedIn (a : AccessFlags) (m : Modifier) : Prop :=
  ∃ flag, m.test = .access flag ∧ ∀ i, flag.bits.getLsbD i = true → a.bits.getLsbD i = true

/-- The modifier is found in a metadata word: its field holds its number. -/
def NotedIn (w : MetadataWord) (m : Modifier) : Prop :=
  ∃ t, m.test = .metadata t ∧
    w.bits.toNat / 2 ^ t.field.shift % 2 ^ t.field.width = t.value

theorem inAccess_iff {m : Modifier} {a : AccessFlags} : m.inAccess a = true ↔ m.FlaggedIn a := by
  rw [inAccess, FlaggedIn]
  cases m.test with
  | access flag => simp [AccessFlags.has_iff]
  | metadata t => simp

theorem inWord_iff {m : Modifier} {w : MetadataWord} : m.inWord w = true ↔ m.NotedIn w := by
  rw [inWord, NotedIn]
  cases m.test with
  | access flag => simp
  | metadata t => simp [BitTest.holds, BitField.read_eq]

theorem mem_all (m : Modifier) : m ∈ all := by cases m <;> decide

theorem all_ctorIdx (m : Modifier) : all[m.ctorIdx]? = some m := by cases m <;> rfl

theorem ctorIdx_inj {m n : Modifier} (h : m.ctorIdx = n.ctorIdx) : m = n := by
  have hm := m.all_ctorIdx
  rw [h, n.all_ctorIdx] at hm
  exact (Option.some.inj hm).symm

theorem ctorIdx_lt (m : Modifier) : m.ctorIdx < all.length :=
  List.getElem?_eq_some_iff.mp m.all_ctorIdx |>.1

/-- These are the modifiers with the property, each once and in the order of their declaration. -/
structure Listed (P : Modifier → Prop) (ms : List Modifier) : Prop where
  mem_iff : ∀ m, m ∈ ms ↔ P m
  ordered : ms.Pairwise fun a b => a.ctorIdx < b.ctorIdx

theorem ordered_all : all.Pairwise fun a b => a.ctorIdx < b.ctorIdx := by decide

theorem listed_filter {P : Modifier → Prop} {p : Modifier → Bool} (h : ∀ m, p m = true ↔ P m) :
    Listed P (all.filter p) where
  mem_iff m := by rw [List.mem_filter, h, and_iff_right m.mem_all]
  ordered := ordered_all.filter p

theorem nodup_keywords {ms : List Modifier} (h : ms.Sublist all) :
    (ms.filterMap keyword?).Nodup := by
  have hall : (all.filterMap keyword?).Nodup := by decide +kernel
  exact hall.sublist (h.filterMap _)

end Modifier

/-- A set of modifiers in one word. -/
structure ModifierMask where
  bits : BitVec 32

namespace ModifierMask

def bit (m : Modifier) : BitVec 32 := 1#32 <<< m.ctorIdx

def empty : ModifierMask := ⟨0#32⟩

def insert (w : ModifierMask) (m : Modifier) : ModifierMask := ⟨w.bits ||| bit m⟩

def erase (w : ModifierMask) (m : Modifier) : ModifierMask := ⟨w.bits &&& ~~~bit m⟩

def insertIf (w : ModifierMask) (m : Modifier) (present : Bool) : ModifierMask :=
  if present then w.insert m else w.erase m

def union (w v : ModifierMask) : ModifierMask := ⟨w.bits ||| v.bits⟩

/-- The modifiers that pass a test, put in one after another. -/
def detect (p : Modifier → Bool) : ModifierMask := (Modifier.all.filter p).foldl insert empty

def contains (w : ModifierMask) (m : Modifier) : Bool := w.bits &&& bit m != 0#32

def toList (w : ModifierMask) : List Modifier := Modifier.all.filter w.contains

/-- How many bits are set. -/
def count (w : ModifierMask) : Nat := (List.range 32).countP w.bits.getLsbD

/-- The bits that are set are those of the modifiers in the set. -/
def Holds (w : ModifierMask) (s : ModifierSet) : Prop :=
  ∀ i, w.bits.getLsbD i = true ↔ ∃ m, m.ctorIdx = i ∧ s.has m = true

theorem getLsbD_bit (m : Modifier) (i : Nat) : (bit m).getLsbD i = decide (m.ctorIdx = i) := by
  have hm : m.ctorIdx < 32 := Nat.lt_of_lt_of_le m.ctorIdx_lt (by decide)
  rw [bit, ← BitVec.twoPow_eq, BitVec.getLsbD_twoPow, decide_eq_true hm, Bool.true_and]

variable {w v : ModifierMask} {s t : ModifierSet}

theorem holds_empty : empty.Holds .empty := by
  intro i
  simp [empty, ModifierSet.empty]

theorem Holds.insert (h : w.Holds s) (m : Modifier) : (w.insert m).Holds (s.insert m) := by
  intro i
  rw [ModifierMask.insert, BitVec.getLsbD_or, getLsbD_bit, Bool.or_eq_true, h i]
  simp only [ModifierSet.insert, Bool.or_eq_true, beq_iff_eq, decide_eq_true_eq]
  constructor
  · rintro (⟨n, hn, hs⟩ | hm)
    · exact ⟨n, hn, .inr hs⟩
    · exact ⟨m, hm, .inl rfl⟩
  · rintro ⟨n, hn, rfl | hs⟩
    · exact .inr hn
    · exact .inl ⟨n, hn, hs⟩

theorem Holds.erase (h : w.Holds s) (m : Modifier) : (w.erase m).Holds (s.erase m) := by
  intro i
  rw [ModifierMask.erase, BitVec.getLsbD_and, BitVec.getLsbD_not, getLsbD_bit, Bool.and_eq_true,
    h i]
  simp only [ModifierSet.erase, Bool.and_eq_true, bne_iff_ne, Bool.not_eq_true',
    decide_eq_false_iff_not, decide_eq_true_eq]
  constructor
  · rintro ⟨⟨n, rfl, hs⟩, _, hm⟩
    exact ⟨n, rfl, fun hn => hm (hn ▸ rfl), hs⟩
  · rintro ⟨n, rfl, hne, hs⟩
    have hn : n.ctorIdx < 32 := Nat.lt_of_lt_of_le n.ctorIdx_lt (by decide)
    exact ⟨⟨n, rfl, hs⟩, hn, fun hm => hne (Modifier.ctorIdx_inj hm).symm⟩

theorem Holds.union (h : w.Holds s) (h' : v.Holds t) : (w.union v).Holds (s.union t) := by
  intro i
  rw [ModifierMask.union, BitVec.getLsbD_or, Bool.or_eq_true, h i, h' i]
  simp only [ModifierSet.union, Bool.or_eq_true, and_or_left, exists_or]

theorem has_foldl_insert (ms : List Modifier) (s : ModifierSet) (m : Modifier) :
    (ms.foldl ModifierSet.insert s).has m = true ↔ m ∈ ms ∨ s.has m = true := by
  induction ms generalizing s with
  | nil => simp
  | cons n ms ih => simp [ih, ModifierSet.insert, or_left_comm, or_assoc]

theorem holds_detect (p : Modifier → Bool) : (detect p).Holds ⟨p⟩ := by
  have hset : (Modifier.all.filter p).foldl ModifierSet.insert .empty = ⟨p⟩ := by
    refine congrArg ModifierSet.mk (funext fun m => Bool.eq_iff_iff.mpr ?_)
    exact (has_foldl_insert _ _ m).trans (by simp [ModifierSet.empty, m.mem_all])
  rw [← hset]
  exact List.foldl_rel holds_empty fun m _ _ _ h => h.insert m

theorem Holds.getLsbD_eq (h : w.Holds s) (m : Modifier) :
    w.bits.getLsbD m.ctorIdx = s.has m := by
  refine Bool.eq_iff_iff.mpr ((h _).trans ⟨?_, fun hm => ⟨m, rfl, hm⟩⟩)
  rintro ⟨n, hn, hs⟩
  exact Modifier.ctorIdx_inj hn ▸ hs

theorem Holds.contains_eq (h : w.Holds s) (m : Modifier) : w.contains m = s.has m := by
  have hnonzero : bit m ≠ 0#32 := by
    intro hzero
    have hself := getLsbD_bit m m.ctorIdx
    simp [hzero] at hself
  have hand : w.bits &&& bit m = if s.has m = true then bit m else 0#32 := by
    rw [bit, ← BitVec.twoPow_eq, BitVec.and_twoPow, h.getLsbD_eq]
  rw [contains, hand]
  cases s.has m with
  | false => rfl
  | true => simpa using hnonzero

theorem Holds.toList_eq (h : w.Holds s) : w.toList = s.toList :=
  List.filter_congr fun m _ => h.contains_eq m

/-- No bit is set but those of modifiers, so the bits that are set count the modifiers. -/
theorem Holds.count_eq (h : w.Holds s) : w.count = s.size := by
  have hrange : List.range 32 = Modifier.all.map Modifier.ctorIdx ++ [27, 28, 29, 30, 31] := by
    decide
  have hrest : [27, 28, 29, 30, 31].countP w.bits.getLsbD = 0 := by
    rw [List.countP_eq_zero]
    intro i hi hset
    obtain ⟨m, rfl, _⟩ := (h i).mp hset
    have hm : m.ctorIdx < 27 := m.ctorIdx_lt
    simp only [List.mem_cons, List.not_mem_nil, or_false] at hi
    omega
  have hset : w.bits.getLsbD ∘ Modifier.ctorIdx = s.has := funext h.getLsbD_eq
  rw [count, hrange, List.countP_append, List.countP_map, hrest, hset, ModifierSet.size,
    ModifierSet.toList, List.countP_eq_length_filter, Nat.add_zero]

end ModifierMask

/-- A change to a set of modifiers: one of them is added or taken out, or those are added that a
declaration reads off its access flags or its metadata word. -/
inductive ModifierStep where
  | insert (m : Modifier)
  | erase (m : Modifier)
  | insertIf (m : Modifier) (present : Bool)
  | readAccess (a : AccessFlags) (o : Owner)
  | readWord (w : MetadataWord) (o : Owner)

namespace ModifierStep

def apply (s : ModifierSet) : ModifierStep → ModifierSet
  | insert m => s.insert m
  | erase m => s.erase m
  | insertIf m present => s.insertIf m present
  | readAccess a o => s.union (.ofAccess a o)
  | readWord w o => s.union (.ofWord w o)

def run (steps : List ModifierStep) : ModifierSet := steps.foldl apply .empty

/-- The same change to a word. -/
def applyMask (w : ModifierMask) : ModifierStep → ModifierMask
  | insert m => w.insert m
  | erase m => w.erase m
  | insertIf m present => w.insertIf m present
  | readAccess a o => w.union (.detect fun m => o.owns m.owner && m.inAccess a)
  | readWord word o => w.union (.detect fun m => o.owns m.owner && m.inWord word)

def runMask (steps : List ModifierStep) : ModifierMask := steps.foldl applyMask .empty

theorem holds_applyMask {w : ModifierMask} {s : ModifierSet} (h : w.Holds s)
    (step : ModifierStep) : (applyMask w step).Holds (apply s step) := by
  cases step with
  | insert m => exact h.insert m
  | erase m => exact h.erase m
  | insertIf m present =>
    cases present with
    | false => exact h.erase m
    | true => exact h.insert m
  | readAccess a o => exact h.union (ModifierMask.holds_detect _)
  | readWord word o => exact h.union (ModifierMask.holds_detect _)

theorem holds_runMask (steps : List ModifierStep) : (runMask steps).Holds (run steps) :=
  List.foldl_rel ModifierMask.holds_empty fun step _ _ _ h => holds_applyMask h step

/-- A bit counts only for modifiers of groups above the declaration for which it is read. -/
def Adds (m : Modifier) : ModifierStep → Prop
  | insert m' => m = m'
  | erase _ => False
  | insertIf m' present => m = m' ∧ present = true
  | readAccess a o => o.Above m.owner ∧ m.FlaggedIn a
  | readWord w o => o.Above m.owner ∧ m.NotedIn w

def Removes (m : Modifier) : ModifierStep → Prop
  | erase m' => m = m'
  | insertIf m' present => m = m' ∧ present = false
  | insert _ | readAccess _ _ | readWord _ _ => False

/-- The steps leave the modifier: one of them adds it and no later one removes it. -/
def Leaves (steps : List ModifierStep) (m : Modifier) : Prop :=
  ∃ before step later, steps = before ++ step :: later ∧ step.Adds m ∧ ∀ s ∈ later, ¬ s.Removes m

theorem has_apply (s : ModifierSet) (step : ModifierStep) (m : Modifier) :
    (apply s step).has m = true ↔ step.Adds m ∨ s.has m = true ∧ ¬ step.Removes m := by
  cases step with
  | insert m' => simp [apply, ModifierSet.insert, Adds, Removes]
  | erase m' => simp [apply, ModifierSet.erase, Adds, Removes, and_comm]
  | insertIf m' present =>
    cases present
    · simp [apply, ModifierSet.insertIf, ModifierSet.erase, Adds, Removes, and_comm]
    · simp [apply, ModifierSet.insertIf, ModifierSet.insert, Adds, Removes]
  | readAccess a o =>
    simp [apply, ModifierSet.union, ModifierSet.ofAccess, Adds, Removes, Owner.owns_iff,
      Modifier.inAccess_iff, or_comm]
  | readWord w o =>
    simp [apply, ModifierSet.union, ModifierSet.ofWord, Adds, Removes, Owner.owns_iff,
      Modifier.inWord_iff, or_comm]

theorem leaves_concat (steps : List ModifierStep) (step : ModifierStep) (m : Modifier) :
    Leaves (steps ++ [step]) m ↔ step.Adds m ∨ Leaves steps m ∧ ¬ step.Removes m := by
  constructor
  · rintro ⟨before, s, later, heq, hadds, hkept⟩
    -- the step that adds is the last one, or the last one comes after it
    rcases List.eq_nil_or_concat' later with rfl | ⟨later, last, rfl⟩
    · obtain ⟨-, hs⟩ := List.append_inj' heq rfl
      cases hs
      exact .inl hadds
    · rw [← List.cons_append, ← List.append_assoc] at heq
      obtain ⟨rfl, hs⟩ := List.append_inj' heq rfl
      cases hs
      refine .inr ⟨⟨before, s, later, rfl, hadds, fun s hs => ?_⟩, ?_⟩
      · exact hkept s (List.mem_append_left _ hs)
      · exact hkept step (List.mem_append_right _ List.mem_cons_self)
  · rintro (hadds | ⟨⟨before, s, later, rfl, hadds, hkept⟩, hlast⟩)
    · exact ⟨steps, step, [], rfl, hadds, List.forall_mem_nil _⟩
    · refine ⟨before, s, later ++ [step], by simp, hadds, ?_⟩
      simpa [or_imp, forall_and] using ⟨hkept, hlast⟩

theorem has_run (steps : List ModifierStep) (m : Modifier) :
    (run steps).has m = true ↔ Leaves steps m := by
  induction steps using List.reverseRecOn with
  | nil => simp [run, ModifierSet.empty, Leaves]
  | append_singleton steps step ih =>
    rw [run, List.foldl_append, List.foldl_cons, List.foldl_nil, has_apply, leaves_concat, ← ih]
    rfl

theorem listed_toList (steps : List ModifierStep) :
    Modifier.Listed (Leaves steps) (run steps).toList :=
  Modifier.listed_filter (has_run steps)

/-- Left, of a group above the declaration, and with a keyword. -/
def Shows (steps : List ModifierStep) (o : Owner) (m : Modifier) : Prop :=
  Leaves steps m ∧ o.Above m.owner ∧ m.keyword?.isSome = true

theorem exists_listed_shows (steps : List ModifierStep) (o : Owner) :
    ∃ shown, Modifier.Listed (Shows steps o) shown ∧ shown.Sublist Modifier.all ∧
      (run steps).keywords o = shown.filterMap Modifier.keyword? := by
  refine ⟨_, Modifier.listed_filter (p := fun m =>
    (run steps).has m && (o.owns m.owner && m.keyword?.isSome)) fun m => ?_,
    List.filter_sublist, ?_⟩
  · rw [Bool.and_eq_true, Bool.and_eq_true, has_run, Owner.owns_iff, Shows]
  · rw [ModifierSet.keywords, ModifierSet.toList, List.filter_filter, List.filterMap_filter,
      List.filterMap_filter]
    refine List.filterMap_congr fun m _ => ?_
    cases (run steps).has m <;> cases o.owns m.owner <;> cases m.keyword? <;> rfl

theorem run_congr {steps steps' : List ModifierStep}
    (h : ∀ m, Leaves steps m ↔ Leaves steps' m) : run steps = run steps' := by
  refine congrArg ModifierSet.mk (funext fun m => Bool.eq_iff_iff.mpr ?_)
  exact (has_run steps m).trans ((h m).trans (has_run steps' m).symm)

/-- A declaration shows the keywords of the modifiers that are left, belong to it and have one, each
once and in the order of declaration. Other steps that leave the same modifiers show the same. A
word with a bit for each modifier holds the modifiers that are left, and its bits count them. -/
theorem keywords_follow_modifiers_left (steps : List ModifierStep) (o : Owner) :
    (∃ shown, Modifier.Listed (Shows steps o) shown ∧
        (shown.filterMap Modifier.keyword?).Nodup ∧
        (run steps).render o = " ".intercalate (shown.filterMap Modifier.keyword?) ∧
        (run steps).renderLeading o =
          String.join ((shown.filterMap Modifier.keyword?).map (· ++ " "))) ∧
      (∃ left, Modifier.Listed (Leaves steps) left ∧
        ((run steps).toList = left ∧ (run steps).size = left.length) ∧
        (runMask steps).toList = left ∧ (runMask steps).count = left.length) ∧
      ∀ steps', (∀ m, Leaves steps' m ↔ Leaves steps m) →
        (run steps').render o = (run steps).render o ∧
          (run steps').renderLeading o = (run steps).renderLeading o := by
  obtain ⟨shown, hlisted, hsub, hwords⟩ := exists_listed_shows steps o
  have hmask := holds_runMask steps
  refine ⟨⟨shown, hlisted, Modifier.nodup_keywords hsub, ?_, ?_⟩,
    ⟨_, listed_toList steps, ⟨rfl, rfl⟩, hmask.toList_eq, hmask.count_eq⟩, fun steps' h => ?_⟩
  · rw [ModifierSet.render, hwords]
  · rw [ModifierSet.renderLeading, hwords]
  · rw [run_congr h]
    exact ⟨rfl, rfl⟩

/-- A word of a class with the bit that means inner there, and the flags of a method that is private
and abstract. -/
def innerByFlags : List ModifierStep :=
  [.readWord ⟨0x200⟩ .class_, .erase .internal, .readAccess ⟨0x402⟩ .function]

def innerByName : List ModifierStep :=
  [.insert .abstract_, .insertIf .inner true, .insert .private_]

theorem inner_shown_alike :
    (∀ m, Leaves innerByFlags m ↔ Leaves innerByName m) ∧
      (run innerByFlags).render .class_ = "private abstract inner" ∧
      (run innerByName).render .class_ = "private abstract inner" ∧
      (run innerByName).renderLeading .function = "private abstract " := by
  have hleft : ∀ m, Leaves innerByFlags m ↔ Leaves innerByName m := by
    intro m
    rw [← has_run, ← has_run]
    cases m <;> decide
  have hname : (run innerByName).render .class_ = "private abstract inner" := by decide +kernel
  have hsame := (keywords_follow_modifiers_left innerByName .class_).2.2 innerByFlags hleft
  exact ⟨hleft, hsame.1.trans hname, hname, by decide +kernel⟩

end ModifierStep

end ClassSketch
