import ClassSketch.Proofs.NodeNumbers
import ClassSketch.Sketch.MethodShape

/-! The mask of a constructor's parameters. It has an entry for each parameter of the descriptor, so
its entries are set and read, and parameters are picked, at places that are there. -/

namespace ClassSketch.MethodShape

variable {σ : Type}

def setAt? (mask : List Bool) (i : Nat) : Option (List Bool) :=
  if i < mask.length then some (mask.set i true) else none

/-- The mask, by entries that are set one after another. -/
def addedMask? (k : Kit σ) (n : ClassNode) (m : MethodDecl) (params : List JType) :
    Option (List Bool) :=
  let mask := List.replicate params.length false
  if !m.isConstructor then some mask
  else
    match k.renderer.addedParameters n.decl m with
    | some given => some (fillUp params.length given)
    | none =>
      if n.decl.isEnum && k.options.enumSyntax then
        if startsWithNameAndOrdinal params then do setAt? (← setAt? mask 0) 1 else some mask
      else if startsWithOuter n params then setAt? mask 0 else some mask

/-- Those of the given places at which the mask is false. -/
def visibleAt? (mask : List Bool) : List Nat → Option (List Nat)
  | [] => some []
  | i :: is => do
    let added ← mask[i]?
    let others ← visibleAt? mask is
    return if added then others else i :: others

/-- The shape, with entries of the mask and parameters found by their places. -/
def ofMethod? (k : Kit σ) (n : ClassNode) (m : MethodDecl) : Option MethodShape := do
  let descriptor := descriptorOf m
  let mask ← addedMask? k n m descriptor.params
  let visible ← visibleAt? mask (List.range descriptor.params.length)
  let params ← match genericOf k.options m with
    | some s =>
      if s.params.length = visible.length then some s.params
      else visible.mapM (descriptor.params[·]?)
    | none => visible.mapM (descriptor.params[·]?)
  return { ofMethod k n m with visible, params }

theorem length_fillUp (n : Nat) (given : List Bool) : (fillUp n given).length = n := by
  rw [fillUp, List.length_take, List.length_append, List.length_replicate]
  omega

/-- The mask has as many entries as there are parameters. -/
theorem length_addedMask (k : Kit σ) (n : ClassNode) (m : MethodDecl) (params : List JType) :
    (addedMask k n m params).length = params.length := by
  rw [addedMask]
  split
  · exact length_fillUp _ _
  · split
    · exact length_fillUp _ _
    · split <;> exact length_fillUp _ _

theorem fillUp_nil (n : Nat) : fillUp n [] = List.replicate n false := by
  rw [fillUp, List.nil_append, List.length_nil, Nat.sub_zero, List.take_of_length_le (by simp)]

theorem setAt?_zero (n : Nat) :
    setAt? (List.replicate (n + 1) false) 0 = some (true :: List.replicate n false) := by
  rw [setAt?, if_pos (by simp)]
  rfl

theorem fillUp_one (n : Nat) : fillUp (n + 1) [true] = true :: List.replicate n false := by
  have htake : (List.replicate n false).take n = List.replicate n false :=
    List.take_of_length_le (by simp)
  rw [fillUp, List.singleton_append, List.take_succ_cons, List.length_singleton,
    Nat.add_sub_cancel, htake]

theorem fillUp_two (n : Nat) :
    fillUp (n + 2) [true, true] = true :: true :: List.replicate n false := by
  have htake : (List.replicate n false).take n = List.replicate n false :=
    List.take_of_length_le (by simp)
  rw [fillUp]
  simp only [List.cons_append, List.nil_append, List.take_succ_cons, List.length_cons,
    List.length_nil, Nat.zero_add, Nat.reduceAdd, Nat.add_sub_cancel, htake]

/-- A constructor that starts with a name and an ordinal has two parameters. -/
theorem setAt?_two {params : List JType} (h : startsWithNameAndOrdinal params = true) :
    (do setAt? (← setAt? (List.replicate params.length false) 0) 1) =
      some (fillUp params.length [true, true]) := by
  obtain ⟨t, u, ts, rfl⟩ : ∃ t u ts, params = t :: u :: ts := by
    match params, h with
    | t :: u :: ts, _ => exact ⟨t, u, ts, rfl⟩
  rw [List.length_cons, List.length_cons, setAt?_zero, fillUp_two, Option.bind_eq_bind,
    Option.bind_some, setAt?, if_pos (by simp)]
  rfl

theorem setAt?_one {n : ClassNode} {params : List JType} (h : startsWithOuter n params = true) :
    setAt? (List.replicate params.length false) 0 = some (fillUp params.length [true]) := by
  cases params with
  | nil => simp [startsWithOuter] at h
  | cons t ts => rw [List.length_cons, setAt?_zero, fillUp_one]

theorem addedMask?_eq (k : Kit σ) (n : ClassNode) (m : MethodDecl) (params : List JType) :
    addedMask? k n m params = some (addedMask k n m params) := by
  rw [addedMask?, addedMask]
  by_cases hinit : (!m.isConstructor) = true
  · rw [if_pos hinit, if_pos hinit, fillUp_nil]
  · rw [if_neg hinit, if_neg hinit]
    cases k.renderer.addedParameters n.decl m with
    | some given => rfl
    | none =>
      dsimp only
      by_cases henum : (n.decl.isEnum && k.options.enumSyntax) = true
      · rw [if_pos henum, if_pos henum]
        by_cases hstart : startsWithNameAndOrdinal params = true
        · rw [if_pos hstart, if_pos hstart, setAt?_two hstart]
        · rw [if_neg hstart, if_neg hstart, fillUp_nil]
      · rw [if_neg henum, if_neg henum]
        by_cases houter : startsWithOuter n params = true
        · rw [if_pos houter, if_pos houter, setAt?_one houter]
        · rw [if_neg houter, if_neg houter, fillUp_nil]

theorem visibleAt?_range (before mask : List Bool) :
    visibleAt? (before ++ mask) (List.range' before.length mask.length) =
      some (positionsOfFalse before.length mask) := by
  induction mask generalizing before with
  | nil => rfl
  | cons b bs ih =>
    have hentry : (before ++ b :: bs)[before.length]? = some b := by simp
    have hrest := ih (before ++ [b])
    rw [List.append_assoc, List.singleton_append, List.length_append, List.length_singleton]
      at hrest
    rw [List.length_cons, List.range'_succ, visibleAt?, hentry, hrest]
    cases b <;> rfl

theorem mapM_positions (before : List JType) {mask : List Bool} {params : List JType}
    (h : mask.length = params.length) :
    (positionsOfFalse before.length mask).mapM ((before ++ params)[·]?) =
      some (shownParams mask params) := by
  induction mask generalizing before params with
  | nil =>
    cases params with
    | nil => rfl
    | cons t ts => cases h
  | cons b bs ih =>
    cases params with
    | nil => cases h
    | cons t ts =>
      have hentry : (before ++ t :: ts)[before.length]? = some t := by simp
      have hrest := ih (before ++ [t]) (Nat.succ.inj h)
      rw [List.append_assoc, List.singleton_append, List.length_append, List.length_singleton]
        at hrest
      cases b with
      | true => exact hrest
      | false =>
        rw [positionsOfFalse, List.mapM_cons, hentry, hrest]
        rfl

theorem ofMethod?_eq (k : Kit σ) (n : ClassNode) (m : MethodDecl) :
    ofMethod? k n m = some (ofMethod k n m) := by
  have hlength := length_addedMask k n m (descriptorOf m).params
  have hvisible := visibleAt?_range [] (addedMask k n m (descriptorOf m).params)
  have hparams := mapM_positions [] hlength
  rw [List.nil_append, List.length_nil, ← List.range_eq_range', hlength] at hvisible
  rw [List.nil_append, List.length_nil] at hparams
  rw [ofMethod?, addedMask?_eq]
  simp only [Option.bind_eq_bind, Option.bind_some, hvisible]
  rw [ofMethod]
  cases genericOf k.options m with
  | none =>
    dsimp only
    rw [hparams]
    rfl
  | some s =>
    dsimp only
    split
    · rfl
    · rw [hparams]
      rfl

end ClassSketch.MethodShape
