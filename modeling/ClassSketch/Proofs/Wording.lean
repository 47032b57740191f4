import ClassSketch.Proofs.Alphabet
import ClassSketch.Sketch.Class

/-! Types and declarations over an alphabet. What is read from a signature is put together from the
characters of the signature, so reading never leaves the alphabet. -/

namespace ClassSketch

open Text (Within)

mutual

/-- The names of classes and type variables in a type. -/
def JType.words : JType → List String
  | .prim _ _ => []
  | .named n as _ => n :: TypeArg.allWords as
  | .var v _ => [v]

def TypeArg.words : TypeArg → List String
  | .wildcard => []
  | .exact t | .upper t | .lower t => t.words

def TypeArg.allWords : List TypeArg → List String
  | [] => []
  | a :: as => a.words ++ TypeArg.allWords as

end

section Types

variable (w : Wording)

def JType.Worded (t : JType) : Prop := ∀ s ∈ t.words, Within w.letter s

def TypeArg.Worded (a : TypeArg) : Prop := ∀ s ∈ a.words, Within w.letter s

structure TypeParameter.Worded (p : TypeParameter) : Prop where
  name : Within w.letter p.name
  bounds : ∀ b ∈ p.bounds, b.Worded w

structure ClassSignature.Worded (s : ClassSignature) : Prop where
  typeParams : ∀ p ∈ s.typeParams, p.Worded w
  superclass : s.superclass.Worded w
  interfaces : ∀ t ∈ s.interfaces, t.Worded w

structure MethodDescriptor.Worded (d : MethodDescriptor) : Prop where
  params : ∀ t ∈ d.params, t.Worded w
  result : d.result.Worded w

structure MethodSignature.Worded (s : MethodSignature) : Prop where
  typeParams : ∀ p ∈ s.typeParams, p.Worded w
  params : ∀ t ∈ s.params, t.Worded w
  result : s.result.Worded w
  throws : ∀ t ∈ s.throws, t.Worded w

theorem ClassSignature.worded_any (s : ClassSignature) : s.Worded Wording.any :=
  ⟨fun _ _ => ⟨fun _ _ => trivial, fun _ _ _ _ _ _ => trivial⟩, fun _ _ _ _ => trivial,
    fun _ _ _ _ _ _ => trivial⟩

variable {w}

theorem JType.worded_prim (p : Primitive) (d : Nat) : (JType.prim p d).Worded w := by
  simp [Worded, words]

theorem JType.worded_var {v : String} {d : Nat} : (JType.var v d).Worded w ↔ Within w.letter v := by
  simp [Worded, words]

theorem TypeArg.mem_allWords {as : List TypeArg} {s : String} :
    s ∈ TypeArg.allWords as ↔ ∃ a ∈ as, s ∈ a.words := by
  induction as with
  | nil => simp [TypeArg.allWords]
  | cons a as ih => simp [TypeArg.allWords, ih]

theorem JType.worded_named {n : String} {as : List TypeArg} {d : Nat} :
    (JType.named n as d).Worded w ↔ Within w.letter n ∧ ∀ a ∈ as, a.Worded w := by
  simp only [Worded, words, List.mem_cons, forall_eq_or_imp, TypeArg.mem_allWords,
    TypeArg.Worded]
  exact and_congr_right fun _ =>
    ⟨fun h a ha s hs => h s ⟨a, ha, hs⟩, fun h s ⟨a, ha, hs⟩ => h a ha s hs⟩

theorem JType.worded_ofClass {n : String} (h : Within w.letter n) : (JType.ofClass n).Worded w :=
  worded_named.mpr ⟨h, by simp⟩

theorem JType.worded_object : JType.object.Worded w := worded_ofClass (w.fixed (by decide))

theorem JType.words_withDepth (d : Nat) (t : JType) : (t.withDepth d).words = t.words := by
  cases t <;> rfl

theorem JType.Worded.withDepth {t : JType} (h : t.Worded w) (d : Nat) :
    (t.withDepth d).Worded w := by
  rw [Worded, words_withDepth]
  exact h

theorem JType.Worded.arrayOf {t : JType} (h : t.Worded w) (extra : Nat) :
    (t.arrayOf extra).Worded w :=
  h.withDepth _

theorem JType.Worded.element {t e : JType} (h : t.Worded w) (he : t.element? = some e) :
    e.Worded w := by
  rw [element?] at he
  split at he
  · cases he
  · cases he
    exact h.withDepth _

theorem TypeParameter.Worded.visibleBounds {p : TypeParameter} (h : p.Worded w) :
    ∀ b ∈ p.visibleBounds, b.Worded w := by
  intro b hb
  apply h.bounds
  rw [TypeParameter.visibleBounds] at hb
  split at hb
  · rename_i c hc
    split at hb
    · cases hb
    · exact hc ▸ hb
  · exact hb

end Types

namespace Signature

/-- What is read is fine, and so is the rest of the text. -/
def Reads {α : Type} (w : Wording) (P : α → Prop) (r : Read α) : Prop :=
  ∀ a rest, r = some (a, rest) → P a ∧ ∀ c ∈ rest, w.letter c

section

variable {α β : Type} {w : Wording} {P : α → Prop} {Q : β → Prop}

theorem reads_none : Reads w P none := fun _ _ h => nomatch h

theorem reads_some {a : α} {rest : List Char} (ha : P a) (hrest : ∀ c ∈ rest, w.letter c) :
    Reads w P (some (a, rest)) := by
  intro b cs h
  cases h
  exact ⟨ha, hrest⟩

theorem Reads.map {r : Read α} {f : α → β} (h : Reads w P r) (hf : ∀ a, P a → Q (f a)) :
    Reads w Q (r.map fun p => (f p.1, p.2)) := by
  cases r with
  | none => exact reads_none
  | some p =>
    obtain ⟨ha, hrest⟩ := h p.1 p.2 rfl
    exact reads_some (hf p.1 ha) hrest

theorem reads_readRun {p : Char → Bool} {cs : List Char} (h : ∀ c ∈ cs, w.letter c) :
    Reads w (fun run => Within w.letter (String.ofList run)) (readRun p cs) := by
  have hrun : ∀ c ∈ cs.takeWhile p, w.letter c :=
    fun c hc => h c ((List.takeWhile_sublist _).mem hc)
  rw [readRun]
  split
  · exact reads_none
  · rename_i run hr
    refine reads_some ?_ fun c hc => h c ((List.dropWhile_sublist _).mem hc)
    rw [Text.within_ofList]
    exact hrun

theorem reads_readVariable {cs : List Char} (h : ∀ c ∈ cs, w.letter c) :
    Reads w (·.Worded w) (readVariable cs) := by
  rw [readVariable]
  split
  · rename_i name rest hr
    obtain ⟨hname, hrest⟩ := reads_readRun h name _ hr
    exact reads_some (JType.worded_var.mpr hname) fun c hc => hrest c (List.mem_cons_of_mem _ hc)
  · exact reads_none

theorem readMany_letters {read : List Char → Read α}
    (hread : ∀ cs, (∀ c ∈ cs, w.letter c) → Reads w P (read cs)) (fuel : Nat) {cs : List Char}
    (h : ∀ c ∈ cs, w.letter c) :
    (∀ a ∈ (readMany read fuel cs).1, P a) ∧ ∀ c ∈ (readMany read fuel cs).2, w.letter c := by
  induction fuel generalizing cs with
  | zero => exact ⟨by simp [readMany], h⟩
  | succ fuel ih =>
    simp only [readMany]
    split
    · rename_i a rest hr
      obtain ⟨ha, hrest⟩ := hread cs h a rest hr
      obtain ⟨hmany, hend⟩ := ih hrest
      refine ⟨fun b hb => ?_, hend⟩
      rcases List.mem_cons.mp hb with rfl | hb
      · exact ha
      · exact hmany b hb
    · exact ⟨by simp, h⟩

theorem reads_whole {form : SignatureForm} {read : List Char → Read α}
    (hread : ∀ cs, (∀ c ∈ cs, w.letter c) → Reads w P (read cs)) {input : String}
    (h : Within w.letter input) {a : α} (ha : whole form read input = .ok a) : P a := by
  rw [whole] at ha
  split at ha
  · rename_i b hb
    cases ha
    exact (hread _ h a [] hb).1
  · cases ha
  · cases ha

end

/-- What the five mutual readers do within a number of steps. -/
structure TypeReads (w : Wording) (fuel : Nat) : Prop where
  type : ∀ {cs}, (∀ c ∈ cs, w.letter c) → Reads w (·.Worded w) (readType fuel cs)
  reference : ∀ {cs}, (∀ c ∈ cs, w.letter c) → Reads w (·.Worded w) (readReference fuel cs)
  segments : ∀ {name args cs}, Within w.letter name → (∀ a ∈ args, a.Worded w) →
    (∀ c ∈ cs, w.letter c) → Reads w (·.Worded w) (readSegments fuel name args cs)
  args : ∀ {cs}, (∀ c ∈ cs, w.letter c) → Reads w (∀ a ∈ ·, a.Worded w) (readArgs fuel cs)
  arg : ∀ {cs}, (∀ c ∈ cs, w.letter c) → Reads w (·.Worded w) (readArg fuel cs)

theorem letters_tail {w : Wording} {c : Char} {cs : List Char} (h : ∀ d ∈ c :: cs, w.letter d) :
    ∀ d ∈ cs, w.letter d :=
  fun d hd => h d (List.mem_cons_of_mem _ hd)

namespace TypeReads

variable {w : Wording} {fuel : Nat}

theorem step_type (h : ∀ n < fuel, TypeReads w n) {cs : List Char} (hcs : ∀ c ∈ cs, w.letter c) :
    Reads w (·.Worded w) (readType fuel cs) := by
  fun_cases readType fuel cs with
  | case1 => exact reads_none
  | case2 => exact reads_none
  | case3 => exact reads_none
  | case4 => exact reads_some (JType.worded_prim _ _) (letters_tail hcs)
  | case5 => exact (h _ (Nat.lt_succ_self _)).reference hcs

theorem step_reference (h : ∀ n < fuel, TypeReads w n) {cs : List Char}
    (hcs : ∀ c ∈ cs, w.letter c) : Reads w (·.Worded w) (readReference fuel cs) := by
  fun_cases readReference fuel cs with
  | case1 => exact reads_none
  | case2 fuel rest head rest₁ hhead args rest₂ hargs =>
    have ih := h _ (Nat.lt_succ_self _)
    obtain ⟨hname, hrest⟩ := reads_readRun (letters_tail hcs) _ _ hhead
    obtain ⟨has, hrest⟩ := ih.args (letters_tail hrest) _ _ hargs
    exact ih.segments hname has hrest
  | case3 => exact reads_none
  | case4 fuel rest head rest₁ _ hhead =>
    obtain ⟨hname, hrest⟩ := reads_readRun (letters_tail hcs) _ _ hhead
    exact (h _ (Nat.lt_succ_self _)).segments hname (by simp) hrest
  | case5 => exact reads_none
  | case6 => exact reads_readVariable (letters_tail hcs)
  | case7 fuel rest =>
    exact ((h _ (Nat.lt_succ_self _)).type (letters_tail hcs)).map fun t ht => ht.arrayOf 1
  | case8 => exact reads_none

theorem step_segments (h : ∀ n < fuel, TypeReads w n) {name : String} {args : List TypeArg}
    {cs : List Char} (hname : Within w.letter name) (has : ∀ a ∈ args, a.Worded w)
    (hcs : ∀ c ∈ cs, w.letter c) : Reads w (·.Worded w) (readSegments fuel name args cs) := by
  have hjoin : ∀ {name inner}, Within w.letter name → Within w.letter (String.ofList inner) →
      Within w.letter (name ++ "$" ++ String.ofList inner) := fun hname hinner =>
    Text.within_append.mpr ⟨Text.within_append.mpr ⟨hname, w.fixed (by decide)⟩, hinner⟩
  fun_cases readSegments fuel name args cs with
  | case1 => exact reads_none
  | case2 => exact reads_some (JType.worded_named.mpr ⟨hname, has⟩) (letters_tail hcs)
  | case3 fuel name _ rest inner rest₁ hinner args rest₂ hargs =>
    have ih := h _ (Nat.lt_succ_self _)
    obtain ⟨hinner, hrest⟩ := reads_readRun (letters_tail hcs) _ _ hinner
    obtain ⟨has, hrest⟩ := ih.args (letters_tail hrest) _ _ hargs
    exact ih.segments (hjoin hname hinner) has hrest
  | case4 => exact reads_none
  | case5 fuel name _ rest inner rest₁ _ hinner =>
    obtain ⟨hinner, hrest⟩ := reads_readRun (letters_tail hcs) _ _ hinner
    exact (h _ (Nat.lt_succ_self _)).segments (hjoin hname hinner) (by simp) hrest
  | case6 => exact reads_none
  | case7 => exact reads_none

theorem step_args (h : ∀ n < fuel, TypeReads w n) {cs : List Char} (hcs : ∀ c ∈ cs, w.letter c) :
    Reads w (∀ a ∈ ·, a.Worded w) (readArgs fuel cs) := by
  fun_cases readArgs fuel cs with
  | case1 => exact reads_none
  | case2 fuel cs a rest hr =>
    obtain ⟨ha, hrest⟩ := (h _ (Nat.lt_succ_self _)).arg hcs _ _ hr
    exact reads_some (by simpa using ha) (letters_tail hrest)
  | case3 fuel cs a rest _ hr =>
    have ih := h _ (Nat.lt_succ_self _)
    obtain ⟨ha, hrest⟩ := ih.arg hcs _ _ hr
    refine (ih.args hrest).map fun as has b hb => ?_
    rcases List.mem_cons.mp hb with rfl | hb
    · exact ha
    · exact has b hb
  | case4 => exact reads_none

theorem step_arg (h : ∀ n < fuel, TypeReads w n) {cs : List Char} (hcs : ∀ c ∈ cs, w.letter c) :
    Reads w (·.Worded w) (readArg fuel cs) := by
  have hbound : ∀ {t : JType}, t.Worded w → (TypeArg.upper t).Worded w ∧
      (TypeArg.lower t).Worded w ∧ (TypeArg.exact t).Worded w := by
    intro t ht
    simpa [TypeArg.Worded, TypeArg.words, JType.Worded] using ht
  fun_cases readArg fuel cs with
  | case1 => exact reads_none
  | case2 => exact reads_some (by simp [TypeArg.Worded, TypeArg.words]) (letters_tail hcs)
  | case3 =>
    exact ((h _ (Nat.lt_succ_self _)).reference (letters_tail hcs)).map fun t ht => (hbound ht).1
  | case4 =>
    exact ((h _ (Nat.lt_succ_self _)).reference (letters_tail hcs)).map fun t ht => (hbound ht).2.1
  | case5 => exact ((h _ (Nat.lt_succ_self _)).reference hcs).map fun t ht => (hbound ht).2.2

theorem all (fuel : Nat) : TypeReads w fuel := by
  induction fuel using Nat.strongRecOn with
  | ind fuel ih => exact ⟨step_type ih, step_reference ih, step_segments ih, step_args ih, step_arg ih⟩

end TypeReads

variable {w : Wording}

theorem reads_typeAt (cs : List Char) (h : ∀ c ∈ cs, w.letter c) :
    Reads w (·.Worded w) (typeAt cs) :=
  (TypeReads.all _).type h

theorem reads_referenceAt (cs : List Char) (h : ∀ c ∈ cs, w.letter c) :
    Reads w (·.Worded w) (referenceAt cs) :=
  (TypeReads.all _).reference h

theorem reads_classAt (cs : List Char) (h : ∀ c ∈ cs, w.letter c) :
    Reads w (·.Worded w) (classAt cs) := by
  rw [classAt.eq_def]
  split
  · exact reads_referenceAt _ h
  · exact reads_none

theorem reads_readBound (cs : List Char) (h : ∀ c ∈ cs, w.letter c) :
    Reads w (·.Worded w) (readBound cs) := by
  rw [readBound.eq_def]
  split
  · exact reads_referenceAt _ (letters_tail h)
  · exact reads_none

theorem reads_readThrown (cs : List Char) (h : ∀ c ∈ cs, w.letter c) :
    Reads w (·.Worded w) (readThrown cs) := by
  rw [readThrown.eq_def]
  split
  · exact reads_referenceAt _ (letters_tail h)
  · exact reads_none

theorem reads_readResult (cs : List Char) (h : ∀ c ∈ cs, w.letter c) :
    Reads w (·.Worded w) (readResult cs) := by
  rw [readResult.eq_def]
  split
  · exact reads_some (JType.worded_prim _ _) (letters_tail h)
  · exact reads_typeAt _ h

theorem reads_bounds {name : String} {first : List JType} {cs : List Char}
    (hname : Within w.letter name) (hfirst : ∀ t ∈ first, t.Worded w)
    (h : ∀ c ∈ cs, w.letter c) : Reads w (·.Worded w) (some
      ((⟨name, if (first ++ (many readBound cs).1).isEmpty then [JType.object]
        else first ++ (many readBound cs).1⟩ : TypeParameter), (many readBound cs).2)) := by
  obtain ⟨hmany, hend⟩ := readMany_letters reads_readBound cs.length h
  refine reads_some ⟨hname, fun t ht => ?_⟩ hend
  dsimp only at ht
  split at ht
  · rw [List.mem_singleton.mp ht]
    exact JType.worded_object
  · exact (List.mem_append.mp ht).elim (hfirst t) (hmany t)

theorem reads_readParam (cs : List Char) (h : ∀ c ∈ cs, w.letter c) :
    Reads w (·.Worded w) (readParam cs) := by
  rw [readParam]
  split
  · rename_i name rest hr
    obtain ⟨hname, hrest⟩ := reads_readRun h _ _ hr
    have hrest := letters_tail hrest
    -- A bound that cannot be read counts as absent and takes nothing from the text.
    cases hb : referenceAt rest with
    | none => exact reads_bounds hname (by simp) hrest
    | some p =>
      obtain ⟨ht, hrest⟩ := reads_referenceAt rest hrest _ _ hb
      exact reads_bounds hname (by simpa using ht) hrest
  · exact reads_none

theorem readParams_letters {cs : List Char} (h : ∀ c ∈ cs, w.letter c) :
    (∀ p ∈ (readParams cs).1, p.Worded w) ∧ ∀ c ∈ (readParams cs).2, w.letter c := by
  rw [readParams.eq_def]
  split
  · rename_i rest
    obtain ⟨hps, hrest⟩ := readMany_letters reads_readParam rest.length (letters_tail h)
    split
    · rename_i p ps rest' hm
      rw [← many, hm] at hps hrest
      exact ⟨hps, letters_tail hrest⟩
    · exact ⟨by simp, h⟩
  · exact ⟨by simp, h⟩

theorem reads_readMethod (cs : List Char) (h : ∀ c ∈ cs, w.letter c) :
    Reads w (·.Worded w) (readMethod cs) := by
  rw [readMethod.eq_def]
  split
  · rename_i rest
    obtain ⟨hparams, hrest⟩ := readMany_letters reads_typeAt rest.length (letters_tail h)
    split
    · rename_i params rest' hm
      rw [← many, hm] at hparams hrest
      exact (reads_readResult _ (letters_tail hrest)).map fun t ht => ⟨hparams, ht⟩
    · exact reads_none
  · exact reads_none

theorem reads_readMethodSignature (cs : List Char) (h : ∀ c ∈ cs, w.letter c) :
    Reads w (·.Worded w) (readMethodSignature cs) := by
  obtain ⟨hps, hrest⟩ := readParams_letters h
  simp only [readMethodSignature]
  split
  · rename_i d rest hd
    obtain ⟨hd, hrest⟩ := reads_readMethod _ hrest _ _ hd
    obtain ⟨hthrows, hend⟩ := readMany_letters reads_readThrown rest.length hrest
    exact reads_some ⟨hps, hd.params, hd.result, hthrows⟩ hend
  · exact reads_none

theorem reads_readClassSignature (cs : List Char) (h : ∀ c ∈ cs, w.letter c) :
    Reads w (·.Worded w) (readClassSignature cs) := by
  obtain ⟨hps, hrest⟩ := readParams_letters h
  simp only [readClassSignature]
  split
  · rename_i t rest ht
    obtain ⟨ht, hrest⟩ := reads_classAt _ hrest _ _ ht
    obtain ⟨his, hend⟩ := readMany_letters reads_classAt rest.length hrest
    exact reads_some ⟨hps, ht, his⟩ hend
  · exact reads_none

theorem worded_of_parseFieldType {s : String} {t : JType} (h : Within w.letter s)
    (ht : parseFieldType s = .ok t) : t.Worded w :=
  reads_whole reads_typeAt h ht

theorem worded_of_parseMethodDescriptor {s : String} {d : MethodDescriptor}
    (h : Within w.letter s) (hd : parseMethodDescriptor s = .ok d) : d.Worded w :=
  reads_whole reads_readMethod h hd

theorem worded_of_parseMethodSignature {s : String} {m : MethodSignature}
    (h : Within w.letter s) (hm : parseMethodSignature s = .ok m) : m.Worded w :=
  reads_whole reads_readMethodSignature h hm

theorem worded_of_parseClassSignature {s : String} {c : ClassSignature}
    (h : Within w.letter s) (hc : parseClassSignature s = .ok c) : c.Worded w :=
  reads_whole reads_readClassSignature h hc

end Signature

end ClassSketch
