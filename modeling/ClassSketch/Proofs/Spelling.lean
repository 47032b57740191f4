import ClassSketch.Proofs.Parsing

/-! Types as signatures spell them. A type that has a spelling is read back from it, whatever
follows. -/

namespace ClassSketch

open Grammar

def IsIdentifier (s : String) : Prop := ∃ w : Ident, w.text = s

/-- Slashes may divide the name of a class. -/
def IsClassName (s : String) : Prop := ∃ w : Head, w.text = s

namespace JType

def IsReference : JType → Prop
  | prim _ 0 => False
  | _ => True

def IsClass : JType → Prop
  | named _ _ 0 => True
  | _ => False

mutual

/-- Types with a spelling: a value cannot be void, and its dimensions are counted in a byte. -/
def Spellable : JType → Prop
  | prim p d => p ≠ .void ∧ d ≤ depthLimit
  | named n as d => IsClassName n ∧ SpellableArgs as ∧ d ≤ depthLimit
  | var v d => IsIdentifier v ∧ d ≤ depthLimit

def SpellableArg : TypeArg → Prop
  | .wildcard => True
  | .exact t | .upper t | .lower t => IsReference t ∧ Spellable t

def SpellableArgs : List TypeArg → Prop
  | [] => True
  | a :: as => SpellableArg a ∧ SpellableArgs as

end

mutual

def spell : JType → List Char
  | prim p d => List.replicate d '[' ++ [p.letter]
  | named n as d => List.replicate d '[' ++ 'L' :: (n.toList ++ (spellBracketed as ++ [';']))
  | var v d => List.replicate d '[' ++ 'T' :: (v.toList ++ [';'])

def spellArg : TypeArg → List Char
  | .wildcard => ['*']
  | .upper t => '+' :: spell t
  | .lower t => '-' :: spell t
  | .exact t => spell t

def spellArgs : List TypeArg → List Char
  | [] => []
  | a :: as => spellArg a ++ spellArgs as

def spellBracketed : List TypeArg → List Char
  | [] => []
  | a :: as => '<' :: (spellArg a ++ (spellArgs as ++ ['>']))

end

theorem withDepth_withDepth (t : JType) (d e : Nat) :
    (t.withDepth d).withDepth e = t.withDepth e := by
  cases t <;> rfl

theorem depth_withDepth (t : JType) (d : Nat) : (t.withDepth d).depth = d := by
  cases t <;> rfl

theorem withDepth_depth (t : JType) : t.withDepth t.depth = t := by
  cases t <;> rfl

theorem arrayOf_arrayOf (t : JType) (d e : Nat) : (t.arrayOf d).arrayOf e = t.arrayOf (d + e) := by
  have hdepth : min depthLimit (min depthLimit (t.depth + d) + e) =
      min depthLimit (t.depth + (d + e)) := by omega
  rw [arrayOf, arrayOf, depth_withDepth, withDepth_withDepth, hdepth, arrayOf]

/-- What lies beyond the limit is lost in any case. -/
theorem arrayOf_min (t : JType) (d : Nat) : t.arrayOf (min depthLimit d) = t.arrayOf d := by
  have hdepth : min depthLimit (t.depth + min depthLimit d) = min depthLimit (t.depth + d) := by
    omega
  rw [arrayOf, hdepth, arrayOf]

theorem spell_ne_nil (t : JType) : t.spell ≠ [] := by
  cases t with
  | prim p d => simp [spell]
  | named n as d => simp [spell]
  | var v d => simp [spell]

theorem spell_class {t : JType} (h : t.IsClass) : ∃ cs, t.spell = 'L' :: (cs ++ [';']) := by
  match t, h with
  | named n as 0, _ => exact ⟨n.toList ++ spellBracketed as, by simp [spell]⟩

theorem IsClass.isReference {t : JType} (h : t.IsClass) : t.IsReference := by
  match t, h with
  | named _ _ 0, _ => trivial

end JType

namespace Grammar

theorem Word.toList_text {stops : List Char} (w : Word stops) : w.text.toList = w.chars :=
  String.toList_ofList

def isWord (stops : List Char) (s : String) : Bool :=
  !s.toList.isEmpty && s.toList.all fun c => !stops.contains c

theorem isWord_iff {stops : List Char} {s : String} :
    isWord stops s = true ↔ ∃ w : Word stops, w.text = s := by
  simp only [isWord, Bool.and_eq_true, Bool.not_eq_true', List.isEmpty_eq_false_iff,
    List.all_eq_true, List.contains_eq_mem, decide_eq_false_iff_not]
  constructor
  · rintro ⟨hne, hfree⟩
    exact ⟨⟨s.toList, hne, hfree⟩, String.ofList_toList⟩
  · rintro ⟨w, rfl⟩
    rw [w.toList_text]
    exact ⟨w.nonempty, w.free⟩

section Derivations

/-- The derivation of an array, from that of its elements. -/
theorem TypeTree.exists_array (b : TypeTree) (hb : b.value.depth = 0) {d : Nat}
    (hd : d ≤ JType.depthLimit) :
    ∃ tree : TypeTree, tree.chars = List.replicate d '[' ++ b.chars ∧
      tree.value = b.value.withDepth d := by
  induction d with
  | zero => exact ⟨b, rfl, by rw [← hb, JType.withDepth_depth]⟩
  | succ d ih =>
    obtain ⟨tree, hchars, hvalue⟩ := ih (Nat.le_of_succ_le hd)
    refine ⟨.ref (.array tree), ?_, ?_⟩
    · rw [TypeTree.chars, RefTree.chars, hchars, List.replicate_succ, List.cons_append]
    · have hdepth : min 255 (d + 1) = d + 1 := Nat.min_eq_right hd
      rw [TypeTree.value, RefTree.value, hvalue, JType.depth_withDepth, hdepth,
        JType.withDepth_withDepth]

theorem RefTree.chars_class (w : Head) (args : List ArgTree) :
    (RefTree.named w args []).chars = 'L' :: (w.text.toList ++ (argsPart args ++ [';'])) := by
  rw [RefTree.chars, innerChars, List.nil_append, w.toList_text]

theorem RefTree.value_class (w : Head) (args : List ArgTree) :
    (RefTree.named w args []).value = .named w.text (argValues args) 0 := by
  have hname : "$".intercalate [w.text] = w.text := String.intercalate_singleton
  rw [RefTree.value, List.map_nil, hname]
  rfl

theorem argsPart_eq_spellBracketed {trees : List ArgTree} {as : List TypeArg}
    (hchars : argChars trees = JType.spellArgs as) (hvalues : argValues trees = as) :
    argsPart trees = JType.spellBracketed as := by
  subst hvalues
  cases trees with
  | nil => rw [argsPart, argValues, JType.spellBracketed]
  | cons a trees =>
    rw [argChars, argValues, JType.spellArgs] at hchars
    rw [argsPart, argValues, JType.spellBracketed, ← List.append_assoc, hchars, List.append_assoc]

mutual

theorem exists_type : ∀ t : JType, t.Spellable →
    ∃ tree : TypeTree, tree.chars = t.spell ∧ tree.value = t
  | .prim p d, h => by
    rw [JType.Spellable] at h
    obtain ⟨hp, hd⟩ := h
    have hbase : (TypeTree.base p hp).value = .prim p 0 := by rw [TypeTree.value]
    obtain ⟨tree, hchars, hvalue⟩ := (TypeTree.base p hp).exists_array (by rw [hbase]; rfl) hd
    refine ⟨tree, ?_, ?_⟩
    · rw [hchars, TypeTree.chars, JType.spell]
    · rw [hvalue, hbase]
      rfl
  | .named n as d, h => by
    rw [JType.Spellable] at h
    obtain ⟨⟨w, rfl⟩, has, hd⟩ := h
    obtain ⟨trees, hargs, hvalues⟩ := exists_args as has
    have hclass : (TypeTree.ref (.named w trees [])).value = .named w.text as 0 := by
      rw [TypeTree.value, RefTree.value_class, hvalues]
    obtain ⟨tree, hchars, hvalue⟩ :=
      (TypeTree.ref (.named w trees [])).exists_array (by rw [hclass]; rfl) hd
    refine ⟨tree, ?_, ?_⟩
    · rw [hchars, TypeTree.chars, RefTree.chars_class, argsPart_eq_spellBracketed hargs hvalues,
        JType.spell]
    · rw [hvalue, hclass]
      rfl
  | .var v d, h => by
    rw [JType.Spellable] at h
    obtain ⟨⟨w, rfl⟩, hd⟩ := h
    have hvar : (TypeTree.ref (.var w)).value = .var w.text 0 := by
      rw [TypeTree.value, RefTree.value]
    obtain ⟨tree, hchars, hvalue⟩ := (TypeTree.ref (.var w)).exists_array (by rw [hvar]; rfl) hd
    refine ⟨tree, ?_, ?_⟩
    · rw [hchars, TypeTree.chars, RefTree.chars, ← w.toList_text, JType.spell]
    · rw [hvalue, hvar]
      rfl

theorem exists_reference : ∀ t : JType, t.IsReference → t.Spellable →
    ∃ tree : RefTree, tree.chars = t.spell ∧ tree.value = t
  | t, href, h => by
    obtain ⟨tree, hchars, hvalue⟩ := exists_type t h
    cases tree with
    | base p hp =>
      rw [TypeTree.value] at hvalue
      subst hvalue
      exact absurd href id
    | ref u => exact ⟨u, by rwa [TypeTree.chars] at hchars, by rwa [TypeTree.value] at hvalue⟩

theorem exists_arg : ∀ a : TypeArg, JType.SpellableArg a →
    ∃ tree : ArgTree, tree.chars = JType.spellArg a ∧ tree.value = a
  | .wildcard, _ => ⟨.any, by rw [ArgTree.chars, JType.spellArg], by rw [ArgTree.value]⟩
  | .upper t, h => by
    rw [JType.SpellableArg] at h
    obtain ⟨u, hchars, hvalue⟩ := exists_reference t h.1 h.2
    exact ⟨.upper u, by rw [ArgTree.chars, hchars, JType.spellArg], by rw [ArgTree.value, hvalue]⟩
  | .lower t, h => by
    rw [JType.SpellableArg] at h
    obtain ⟨u, hchars, hvalue⟩ := exists_reference t h.1 h.2
    exact ⟨.lower u, by rw [ArgTree.chars, hchars, JType.spellArg], by rw [ArgTree.value, hvalue]⟩
  | .exact t, h => by
    rw [JType.SpellableArg] at h
    obtain ⟨u, hchars, hvalue⟩ := exists_reference t h.1 h.2
    exact ⟨.exact u, by rw [ArgTree.chars, hchars, JType.spellArg], by rw [ArgTree.value, hvalue]⟩

theorem exists_args : ∀ as : List TypeArg, JType.SpellableArgs as →
    ∃ trees : List ArgTree, argChars trees = JType.spellArgs as ∧ argValues trees = as
  | [], _ => ⟨[], by rw [argChars, JType.spellArgs], by rw [argValues]⟩
  | a :: as, h => by
    rw [JType.SpellableArgs] at h
    obtain ⟨tree, hchars, hvalue⟩ := exists_arg a h.1
    obtain ⟨trees, hall, hvalues⟩ := exists_args as h.2
    exact ⟨tree :: trees, by rw [argChars, hchars, hall, JType.spellArgs],
      by rw [argValues, hvalue, hvalues]⟩

end

end Derivations

end Grammar

section Decision

instance (s : String) : Decidable (IsIdentifier s) := decidable_of_iff _ isWord_iff

instance (s : String) : Decidable (IsClassName s) := decidable_of_iff _ isWord_iff

namespace JType

instance : (t : JType) → Decidable t.IsReference
  | prim _ 0 => isFalse id
  | prim _ (_ + 1) | named _ _ _ | var _ _ => isTrue trivial

instance : (t : JType) → Decidable t.IsClass
  | named _ _ 0 => isTrue trivial
  | named _ _ (_ + 1) | prim _ _ | var _ _ => isFalse id

mutual

def decideSpellable : (t : JType) → Decidable t.Spellable
  | prim p d => inferInstanceAs (Decidable (p ≠ .void ∧ d ≤ depthLimit))
  | named n as d =>
    have := decideSpellableArgs as
    inferInstanceAs (Decidable (IsClassName n ∧ SpellableArgs as ∧ d ≤ depthLimit))
  | var v d => inferInstanceAs (Decidable (IsIdentifier v ∧ d ≤ depthLimit))

def decideSpellableArg : (a : TypeArg) → Decidable (SpellableArg a)
  | .wildcard => isTrue trivial
  | .exact t | .upper t | .lower t =>
    have := decideSpellable t
    inferInstanceAs (Decidable (IsReference t ∧ Spellable t))

def decideSpellableArgs : (as : List TypeArg) → Decidable (SpellableArgs as)
  | [] => isTrue trivial
  | a :: as =>
    have := decideSpellableArg a
    have := decideSpellableArgs as
    inferInstanceAs (Decidable (SpellableArg a ∧ SpellableArgs as))

end

instance : DecidablePred Spellable := decideSpellable

end JType

end Decision

namespace Signature

theorem referenceAt_iff {cs rest : List Char} {t : JType} :
    referenceAt cs = some (t, rest) ↔
      ∃ tree : RefTree, cs = tree.chars ++ rest ∧ tree.value = t := by
  constructor
  · exact (derived (steps cs)).reference
  · rintro ⟨tree, rfl, rfl⟩
    refine readReference_chars tree rest ?_
    rw [steps, List.length_append]
    omega

variable {t : JType}

theorem typeAt_spell (h : t.Spellable) (r : List Char) : typeAt (t.spell ++ r) = some (t, r) := by
  obtain ⟨tree, hchars, hvalue⟩ := exists_type t h
  exact typeAt_iff.mpr ⟨tree, by rw [hchars], hvalue⟩

theorem referenceAt_spell (href : t.IsReference) (h : t.Spellable) (r : List Char) :
    referenceAt (t.spell ++ r) = some (t, r) := by
  obtain ⟨tree, hchars, hvalue⟩ := exists_reference t href h
  exact referenceAt_iff.mpr ⟨tree, by rw [hchars], hvalue⟩

theorem classAt_spell (hclass : t.IsClass) (h : t.Spellable) (r : List Char) :
    classAt (t.spell ++ r) = some (t, r) := by
  have href := referenceAt_spell hclass.isReference h r
  obtain ⟨cs, hcs⟩ := JType.spell_class hclass
  rw [hcs] at href ⊢
  exact href

end Signature

end ClassSketch
