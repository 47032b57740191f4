import ClassSketch.Proofs.Spelling

/-! Types and their descriptors. The types that can be read are those with a spelling, and the
descriptor of a type is the spelling of what is left of it without type arguments and variables. So
a descriptor is read back as the erased type. -/

namespace ClassSketch

open Grammar

namespace JType

variable {t : JType}

theorem Spellable.withDepth (h : t.Spellable) {d : Nat} (hd : d ≤ depthLimit) :
    (t.withDepth d).Spellable := by
  cases t with
  | prim p e => exact ⟨h.1, hd⟩
  | named n as e => exact ⟨h.1, h.2.1, hd⟩
  | var v e => exact ⟨h.1, hd⟩

theorem Spellable.depth_le (h : t.Spellable) : t.depth ≤ depthLimit := by
  cases t with
  | prim p d => exact h.2
  | named n as d => exact h.2.2
  | var v d => exact h.2

theorem isReference_withDepth {d : Nat} (hd : 0 < d) : (t.withDepth d).IsReference := by
  obtain ⟨d, rfl⟩ := Nat.exists_eq_succ_of_ne_zero (Nat.ne_of_gt hd)
  cases t <;> trivial

end JType

namespace Grammar

/-- The segments of a dotted class type, joined, are one class name. -/
theorem isClassName_intercalate {name : String} (h : IsClassName name) (inner : List SegmentTree) :
    IsClassName ("$".intercalate (name :: inner.map fun s => s.name.text)) := by
  induction inner generalizing name with
  | nil =>
    rw [List.map_nil, String.intercalate_singleton]
    exact h
  | cons segment inner ih =>
    obtain ⟨w, rfl⟩ := h
    have hfree : ∀ c ∈ w.chars ++ '$' :: segment.name.chars, c ∉ ['<', '.', ';'] := by
      intro c hc
      rcases List.mem_append.mp hc with hc | hc
      · exact w.free c hc
      · rcases List.mem_cons.mp hc with rfl | hc
        · decide
        · exact fun hstop => segment.name.free c hc (ident_stop (by simpa using hstop))
    have hjoined : IsClassName (w.text ++ "$" ++ segment.name.text) := by
      refine ⟨⟨_, List.append_ne_nil_of_left_ne_nil w.nonempty _, hfree⟩, ?_⟩
      apply String.toList_inj.mp
      simp [Word.toList_text]
    rw [List.map_cons, String.intercalate_cons_cons, ← String.intercalate_cons_append]
    exact ih hjoined

mutual

/-- Whatever is derived has a spelling. -/
theorem TypeTree.spellable_value : ∀ tree : TypeTree, tree.value.Spellable
  | .base _ hp => ⟨hp, Nat.zero_le _⟩
  | .ref u => u.spellable_value.2

theorem RefTree.spellable_value : ∀ tree : RefTree,
    tree.value.IsReference ∧ tree.value.Spellable
  | .named head args inner => by
    have hargs : ∀ as ∈ argValues args :: innerArgs inner, JType.SpellableArgs as := by
      rw [List.forall_mem_cons]
      exact ⟨spellable_argValues args, spellable_innerArgs inner⟩
    exact ⟨trivial, isClassName_intercalate ⟨head, rfl⟩ inner, hargs _ (List.getLast_mem _),
      Nat.zero_le _⟩
  | .var name => ⟨trivial, ⟨name, rfl⟩, Nat.zero_le _⟩
  | .array element => by
    have hdepth : 0 < min 255 (element.value.depth + 1) := by omega
    exact ⟨JType.isReference_withDepth hdepth,
      element.spellable_value.withDepth (Nat.min_le_left _ _)⟩

theorem ArgTree.spellable_value : ∀ tree : ArgTree, JType.SpellableArg tree.value
  | .any => trivial
  | .upper bound => bound.spellable_value
  | .lower bound => bound.spellable_value
  | .exact type => type.spellable_value

theorem spellable_argValues : ∀ trees : List ArgTree, JType.SpellableArgs (argValues trees)
  | [] => trivial
  | a :: as => ⟨a.spellable_value, spellable_argValues as⟩

theorem spellable_innerArgs : ∀ inner : List SegmentTree,
    ∀ as ∈ innerArgs inner, JType.SpellableArgs as
  | [], _, h => by cases h
  | .segment _ args :: inner, as, h => by
    rcases List.mem_cons.mp h with rfl | h
    · exact spellable_argValues args
    · exact spellable_innerArgs inner as h

end

/-- Brackets in front of a type count up to the limit, and the others are read all the same. -/
theorem TypeTree.exists_brackets (b : TypeTree) (d : Nat) :
    ∃ tree : TypeTree, tree.chars = List.replicate d '[' ++ b.chars ∧
      tree.value = b.value.arrayOf d := by
  induction d with
  | zero =>
    have hdepth : min JType.depthLimit (b.value.depth + 0) = b.value.depth :=
      Nat.min_eq_right b.spellable_value.depth_le
    exact ⟨b, rfl, by rw [JType.arrayOf, hdepth, JType.withDepth_depth]⟩
  | succ d ih =>
    obtain ⟨tree, hchars, hvalue⟩ := ih
    refine ⟨.ref (.array tree), ?_, ?_⟩
    · rw [TypeTree.chars, RefTree.chars, hchars, List.replicate_succ, List.cons_append]
    · have harray : (TypeTree.ref (.array tree)).value = tree.value.arrayOf 1 := by
        rw [TypeTree.value, RefTree.value]
        rfl
      rw [harray, hvalue, JType.arrayOf_arrayOf]

end Grammar

namespace JType

/-- What is left of a type without type arguments; a variable may stand for any object. -/
def erased : JType → JType
  | prim p d => prim p d
  | named n _ d => named n [] d
  | var _ d => object.withDepth d

theorem depth_erased (t : JType) : t.erased.depth = t.depth := by
  cases t <;> rfl

theorem descriptor_erased (t : JType) : t.erased.descriptor = t.descriptor := by
  cases t <;> rfl

theorem Spellable.erased {t : JType} (h : t.Spellable) : t.erased.Spellable := by
  cases t with
  | prim p d => exact h
  | named n as d => exact ⟨h.1, trivial, h.2.2⟩
  | var v d =>
    have hobject : object.Spellable := by decide
    exact hobject.withDepth h.2

/-- A descriptor is the spelling of the erased type. -/
theorem toList_descriptor (t : JType) : t.descriptor.toList = t.erased.spell := by
  have hbrackets : ∀ d, (Text.replicate d "[").toList = List.replicate d '[' := by
    intro d
    rw [Text.replicate, String.toList_join, List.flatMap_replicate]
    exact List.flatten_replicate_singleton
  rw [descriptor, String.toList_append, hbrackets]
  cases t with
  | prim p d => simp [base, erased, spell, depth]
  | named n as d => simp [base, erased, spell, spellBracketed, depth]
  | var v d => simp [base, erased, spell, spellBracketed, depth, object, ofClass, withDepth]

end JType

namespace Signature

theorem parseFieldType_spell {t : JType} (h : t.Spellable) :
    parseFieldType (String.ofList t.spell) = .ok t := by
  have hread := typeAt_spell h []
  rw [List.append_nil] at hread
  rw [parseFieldType, whole_eq_ok_iff, String.toList_ofList]
  exact hread

/-- The types that can be read are those with a spelling. -/
theorem exists_parseFieldType_iff {t : JType} :
    (∃ s, parseFieldType s = .ok t) ↔ t.Spellable := by
  constructor
  · rintro ⟨s, h⟩
    rw [parseFieldType, whole_eq_ok_iff, typeAt_iff] at h
    obtain ⟨tree, _, rfl⟩ := h
    exact tree.spellable_value
  · exact fun h => ⟨_, parseFieldType_spell h⟩

/-- The descriptor of a type that was read is read as the erased type, which has the same depth and
the same descriptor. -/
theorem descriptor_reads_as_erased {s : String} {t : JType} (h : parseFieldType s = .ok t) :
    parseFieldType t.descriptor = .ok t.erased ∧ t.erased.depth = t.depth ∧
      t.erased.descriptor = t.descriptor := by
  have hspellable : t.Spellable := exists_parseFieldType_iff.mp ⟨s, h⟩
  have htext : t.descriptor = String.ofList t.erased.spell := by
    rw [← t.toList_descriptor, String.ofList_toList]
  refine ⟨?_, t.depth_erased, t.descriptor_erased⟩
  rw [htext]
  exact parseFieldType_spell hspellable.erased

theorem parseFieldType_brackets {s : String} {t : JType} (h : parseFieldType s = .ok t) (d : Nat) :
    parseFieldType (String.ofList (List.replicate d '[' ++ s.toList)) = .ok (t.arrayOf d) := by
  rw [parseFieldType, whole_eq_ok_iff, typeAt_iff] at h ⊢
  obtain ⟨b, hchars, rfl⟩ := h
  obtain ⟨tree, htree, hvalue⟩ := b.exists_brackets d
  refine ⟨tree, ?_, hvalue⟩
  rw [String.toList_ofList, hchars, htree, List.append_assoc]

/-- A class inside a parameterized one. -/
def innerClass : String := "La/O<[TT;>.I<-TT;*>;"

def innerClassTree : TypeTree :=
  .ref (.named ⟨['a', '/', 'O'], by simp, by simp⟩
    [.exact (.array (.ref (.var ⟨['T'], by simp, by simp⟩)))]
    [.segment ⟨['I'], by simp, by simp⟩ [.lower (.var ⟨['T'], by simp, by simp⟩), .any]])

theorem parseFieldType_innerClass :
    parseFieldType innerClass = .ok (.named "a/O$I" [.lower (.var "T" 0), .wildcard] 0) := by
  rw [parseFieldType, whole_eq_ok_iff, typeAt_iff]
  exact ⟨innerClassTree, by decide, rfl⟩

/-- An array of it that has more dimensions than are counted. -/
def deepArray : String := String.ofList (List.replicate 300 '[' ++ innerClass.toList)

theorem descriptor_reads_as_erased_deep :
    let t : JType := .named "a/O$I" [.lower (.var "T" 0), .wildcard] 255
    let e : JType := .named "a/O$I" [] 255
    parseFieldType deepArray = .ok t ∧ parseFieldType t.descriptor = .ok e ∧
      e.depth = t.depth ∧ e.descriptor = t.descriptor := by
  intro t e
  have hread : parseFieldType deepArray = .ok t := by
    rw [deepArray, parseFieldType_brackets parseFieldType_innerClass 300]
    rfl
  have herased : t.erased = e := rfl
  exact ⟨hread, herased ▸ descriptor_reads_as_erased hread⟩

end Signature

end ClassSketch
