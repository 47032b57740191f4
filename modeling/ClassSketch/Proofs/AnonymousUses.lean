import ClassSketch.Nesting.Anonymity
import Mathlib.Algebra.BigOperators.Group.List.Basic
import Mathlib.Algebra.Ring.Nat
import Mathlib.Data.Multiset.MapFold

/-! The scan for uses of an anonymous class against a rule that only counts. The scan stops at the
first method that spoils the result, and the rule looks at all of them together, so no order of the
methods or of their instructions matters. -/

namespace ClassSketch.Anonymity

/-- One interface and no superclass to be named, or no interface and a superclass. -/
def NamesOneSupertype (c : ClassDecl) : Prop :=
  (∃ i, c.interfaces = [i] ∧ ∀ s, c.superclass = some s → s = "java/lang/Object") ∨
    (c.interfaces = [] ∧ ∃ s, c.superclass = some s)

/-- The name is the one that is recorded for the enclosing method, if any is. -/
def Concerns (c : ClassDecl) (name : String) : Prop :=
  ∀ wanted, c.enclosing.bind (·.methodName) = some wanted → name = wanted

theorem inReach_iff {c : ClassDecl} {m : MethodDecl} : inReach c m = true ↔ Concerns c m.name := by
  rw [inReach, Concerns]
  cases c.enclosing.bind (·.methodName) <;> simp

instance (c : ClassDecl) (name : String) : Decidable (Concerns c name) :=
  decidable_of_iff (inReach c { name, descriptor := "" } = true) inReach_iff

def readCode (read : Reader) (enclosing : ClassDecl) (m : MethodDecl) : List Instruction :=
  match read enclosing m with
  | .ok (some code) => code
  | _ => []

/-- An instruction with the class as its operand and one of the opcodes. -/
def mentions (c : ClassDecl) (ops : List Opcode) (i : Instruction) : Bool :=
  i.operand == some c.name && ops.contains i.opcode

/-- How often the methods in question mention the class, all together. -/
def mentionCount (read : Reader) (c enclosing : ClassDecl) (ops : List Opcode) : Nat :=
  ((enclosing.methods.filter fun m => Concerns c m.name).flatMap (readCode read enclosing)).countP
    (mentions c ops)

def creationOps : List Opcode := [.new, .anewarray, .multianewarray]

def otherUseOps : List Opcode := [.checkcast, .instanceof, .getstatic, .putstatic]

theorem hasOneSupertype_iff {c : ClassDecl} : hasOneSupertype c = true ↔ NamesOneSupertype c := by
  rw [hasOneSupertype, NamesOneSupertype]
  rcases hi : c.interfaces with _ | ⟨i, _ | ⟨j, is⟩⟩
  · simp [Option.isSome_iff_exists]
  · cases hs : c.superclass <;> simp [ClassDecl.visibleSuperclass?, Name.objectClass, hs]
  · simp

theorem isCreation_eq (op : Opcode) : isCreation op = creationOps.contains op := by
  cases op <;> rfl

theorem isOtherUse_eq (op : Opcode) : isOtherUse op = otherUseOps.contains op := by
  cases op <;> rfl

theorem length_filter_mentions {p : Opcode → Bool} {ops : List Opcode}
    (hp : ∀ op, p op = ops.contains op) (c : ClassDecl) (code : List Instruction) :
    ((code.filter fun i => i.operand == some c.name).filter fun i => p i.opcode).length =
      code.countP (mentions c ops) := by
  rw [List.filter_filter, ← List.countP_eq_length_filter]
  refine List.countP_congr fun i _ => ?_
  rw [hp, mentions, Bool.and_comm]

namespace Uses

variable (c : ClassDecl)

theorem addCode_creations (u : Uses) (code : List Instruction) :
    (u.addCode c.name code).creations = u.creations + code.countP (mentions c creationOps) :=
  congrArg (u.creations + ·) (length_filter_mentions isCreation_eq c code)

theorem addCode_others (u : Uses) (code : List Instruction) :
    (u.addCode c.name code).others = u.others + code.countP (mentions c otherUseOps) :=
  congrArg (u.others + ·) (length_filter_mentions isOtherUse_eq c code)

theorem acceptable_iff {u : Uses} : u.acceptable = true ↔ u.creations ≤ 1 ∧ u.others = 0 := by
  simp [acceptable]

end Uses

section Scan

variable {read : Reader} {c enclosing : ClassDecl}

theorem scan_eq_none_iff {ms : List MethodDecl} {u : Uses} (hu : u.acceptable = true) :
    scan read c enclosing u ms = none ↔
      (∀ m ∈ ms, ∃ code, read enclosing m = .ok code) ∧
        u.creations + (ms.flatMap (readCode read enclosing)).countP (mentions c creationOps) ≤ 1 ∧
        u.others + (ms.flatMap (readCode read enclosing)).countP (mentions c otherUseOps) = 0 := by
  induction ms generalizing u with
  | nil => simpa [scan] using Uses.acceptable_iff.mp hu
  | cons m ms ih =>
    rw [List.flatMap_cons, List.countP_append, List.countP_append, List.forall_mem_cons]
    rcases hm : read enclosing m with reason | (_ | code)
    · simp [scan, hm]
    · have hcode : readCode read enclosing m = [] := by rw [readCode, hm]
      simp [scan, hm, hcode, ih hu]
    · have hcode : readCode read enclosing m = code := by rw [readCode, hm]
      have hc := Uses.addCode_creations c u code
      have ho := Uses.addCode_others c u code
      rw [hcode, scan, hm]
      by_cases hnext : (u.addCode c.name code).acceptable = true
      · -- the counters go on from what this method brought
        simp only [hnext, if_true, ih hnext, hc, ho, Nat.add_assoc]
        simp
      · -- the counters only grow, so what stops the scan here also breaks the totals
        have hover : ¬ ((u.addCode c.name code).creations ≤ 1 ∧
            (u.addCode c.name code).others = 0) := fun h => hnext (Uses.acceptable_iff.mpr h)
        simp only [hnext]
        constructor
        · intro h
          cases h
        · rintro ⟨-, hcreations, hothers⟩
          omega

theorem objectionBy?_eq_none_iff_counts :
    objectionBy? read c enclosing = none ↔
      NamesOneSupertype c ∧
        (∀ m ∈ enclosing.methods, Concerns c m.name → ∃ code, read enclosing m = .ok code) ∧
        mentionCount read c enclosing creationOps ≤ 1 ∧
        mentionCount read c enclosing otherUseOps = 0 := by
  have hstart : (({} : Uses)).acceptable = true := rfl
  rw [objectionBy?]
  by_cases hone : hasOneSupertype c = true
  · have hreach : enclosing.methods.filter (inReach c) =
        enclosing.methods.filter fun m => Concerns c m.name :=
      List.filter_congr fun m _ => Bool.eq_iff_iff.mpr (inReach_iff.trans decide_eq_true_iff.symm)
    rw [if_pos hone, scan_eq_none_iff hstart, hreach]
    simp [hasOneSupertype_iff.mp hone, List.mem_filter, mentionCount]
  · rw [if_neg hone]
    simp [mt hasOneSupertype_iff.mpr hone]

end Scan

section Order

/-- A method's name and, if it can be read, its instructions in no order. -/
def reading (read : Reader) (enclosing : ClassDecl) (m : MethodDecl) :
    String × Option (Multiset Instruction) :=
  (m.name, (read enclosing m).toOption.map fun code => ↑(code.getD []))

/-- What a method adds to the count, by its reading alone. -/
def weight (c : ClassDecl) (ops : List Opcode)
    (r : String × Option (Multiset Instruction)) : Nat :=
  if Concerns c r.1 then (r.2.getD 0).countP (fun i => mentions c ops i = true) else 0

theorem countP_readCode (read : Reader) (enclosing : ClassDecl) (m : MethodDecl)
    (p : Instruction → Bool) :
    (readCode read enclosing m).countP p =
      ((reading read enclosing m).2.getD 0).countP fun i => p i = true := by
  rw [readCode, reading]
  rcases read enclosing m with reason | (_ | code)
  · rfl
  · rfl
  · simp [Except.toOption]

theorem mentionCount_eq_sum (read : Reader) (c enclosing : ClassDecl) (ops : List Opcode) :
    mentionCount read c enclosing ops =
      ((enclosing.methods.map (reading read enclosing)).map (weight c ops)).sum := by
  rw [mentionCount]
  generalize enclosing.methods = ms
  induction ms with
  | nil => rfl
  | cons m ms ih =>
    have hname : (reading read enclosing m).1 = m.name := rfl
    rw [List.map_cons, List.map_cons, List.sum_cons, ← ih, weight, hname]
    by_cases h : Concerns c m.name
    · rw [List.filter_cons_of_pos (by simpa using h), List.flatMap_cons, List.countP_append,
        countP_readCode, if_pos h]
    · rw [List.filter_cons_of_neg (by simpa using h), if_neg h, Nat.zero_add]

theorem readable_iff (read : Reader) (c enclosing : ClassDecl) :
    (∀ m ∈ enclosing.methods, Concerns c m.name → ∃ code, read enclosing m = .ok code) ↔
      ∀ r ∈ enclosing.methods.map (reading read enclosing), Concerns c r.1 → r.2.isSome = true := by
  rw [List.forall_mem_map]
  refine forall₂_congr fun m _ => imp_congr_right fun _ => ?_
  cases h : read enclosing m <;> simp [reading, h, Except.toOption]

variable {read read' : Reader} {c enclosing enclosing' : ClassDecl}

theorem objectionBy?_eq_none_iff_of_perm
    (h : (enclosing.methods.map (reading read enclosing)).Perm
      (enclosing'.methods.map (reading read' enclosing'))) :
    objectionBy? read c enclosing = none ↔ objectionBy? read' c enclosing' = none := by
  have hcount : ∀ ops, mentionCount read c enclosing ops = mentionCount read' c enclosing' ops := by
    intro ops
    rw [mentionCount_eq_sum, mentionCount_eq_sum]
    exact (h.map _).sum_eq
  rw [objectionBy?_eq_none_iff_counts, objectionBy?_eq_none_iff_counts, readable_iff, readable_iff,
    hcount, hcount]
  simp only [h.mem_iff]

end Order

/-- Nothing speaks against an anonymous class if and only if it has one supertype, the methods in
question can be read, and all of them together create it at most once and use it in no other way. So
the verdict does not depend on the order of the methods or of their instructions. -/
theorem anonymous_iff_uses_counted (read : Reader) (c enclosing : ClassDecl) :
    (objectionBy? read c enclosing = none ↔
      NamesOneSupertype c ∧
        (∀ m ∈ enclosing.methods, Concerns c m.name → ∃ code, read enclosing m = .ok code) ∧
        mentionCount read c enclosing [.new, .anewarray, .multianewarray] ≤ 1 ∧
        mentionCount read c enclosing [.checkcast, .instanceof, .getstatic, .putstatic] = 0) ∧
      ∀ (read' : Reader) (enclosing' : ClassDecl),
        (enclosing.methods.map (reading read enclosing)).Perm
          (enclosing'.methods.map (reading read' enclosing')) →
        (objectionBy? read c enclosing = none ↔ objectionBy? read' c enclosing' = none) :=
  ⟨objectionBy?_eq_none_iff_counts, fun _ _ h => objectionBy?_eq_none_iff_of_perm h⟩

def runner : ClassDecl where
  name := "a/O$1"
  interfaces := ["java/lang/Runnable"]
  superclass := some "java/lang/Object"
  enclosing := some { className := "a/O", methodName := some "run", descriptor := some "()V" }

def usingRunner (name : String) (ops : List Opcode) : MethodDecl where
  name := name
  descriptor := "()V"
  code := some (ops.map fun opcode => { opcode, operand := some "a/O$1" })

def runnerHost (methods : List MethodDecl) : ClassDecl where
  name := "a/O"
  methods := methods

/-- The cast in the other method does not count. -/
theorem anonymous_iff_uses_counted_runner :
    let read : Reader := Library.code {}
    let host := runnerHost [usingRunner "run" [.new, .invokespecial], usingRunner "other" [.checkcast]]
    let host' := runnerHost [usingRunner "other" [.checkcast], usingRunner "run" [.invokespecial, .new]]
    (host.methods.map (reading read host)).Perm (host'.methods.map (reading read host')) ∧
      objectionBy? read runner host = none ∧ objectionBy? read runner host' = none := by
  intro read host host'
  have hperm : (host.methods.map (reading read host)).Perm
      (host'.methods.map (reading read host')) := by decide +kernel
  have hnone : objectionBy? read runner host = none := by
    refine (anonymous_iff_uses_counted read runner host).1.mpr ⟨?_, ?_, ?_, ?_⟩
    · exact .inl ⟨_, rfl, fun s hs => (Option.some.inj hs).symm⟩
    · exact fun m _ _ => ⟨m.code, rfl⟩
    · decide +kernel
    · decide +kernel
  exact ⟨hperm, hnone, ((anonymous_iff_uses_counted read runner host).2 read host' hperm).mp hnone⟩

end ClassSketch.Anonymity
