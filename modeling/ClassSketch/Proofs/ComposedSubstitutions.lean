import ClassSketch.Proofs.Routes
import ClassSketch.Proofs.Spelling

/-! Substitutions one after the other. Two of them are a single one, whatever type they are applied
to: depths are added up and cut off at the limit, and it makes no difference at which of the steps
they are cut off. So the way up from a class to an ancestor is one substitution. -/

namespace ClassSketch

/-- First `s`, then `r`: the values of `s` are read through `r`, and `r` gives the values that `s`
does not have. -/
def Substitution.andThen (s r : Substitution) : Substitution :=
  Table.mapValues (JType.substitute r) s ++ r

theorem Substitution.lookup_andThen (s r : Substitution) (v : String) :
    (s.andThen r).lookup v = ((s.lookup v).map (JType.substitute r)).or (r.lookup v) := by
  have hvalues : (Table.mapValues (JType.substitute r) s).lookup v =
      (s.lookup v).map (JType.substitute r) := Table.find?_mapValues _ s v
  rw [andThen, List.lookup_append, hvalues]

namespace JType

theorem substitute_arrayOf (s : Substitution) (t : JType) (d : Nat) :
    (t.arrayOf d).substitute s = (t.substitute s).arrayOf d := by
  cases t with
  | prim p e => rfl
  | named n as e => rfl
  | var v e =>
    have hleft : (var v e).arrayOf d = var v (min depthLimit (e + d)) := rfl
    rw [hleft, substitute, substitute]
    cases s.lookup v with
    | none => rfl
    | some u =>
      -- the occurrence is cut off before its depth is added on the left, after that on the right
      calc u.arrayOf (min depthLimit (e + d))
          _ = u.arrayOf (e + d) := u.arrayOf_min (e + d)
          _ = (u.arrayOf e).arrayOf d := (u.arrayOf_arrayOf e d).symm

section Composition

variable (s r : Substitution)

mutual

theorem substitute_andThen : ∀ t : JType, (t.substitute s).substitute r = t.substitute (s.andThen r)
  | prim _ _ => rfl
  | named n as d => by
    rw [substitute, substitute, substitute, substituteArgs_andThen as]
  | var v d => by
    rw [substitute, substitute, Substitution.lookup_andThen]
    cases hv : s.lookup v with
    | none =>
      rw [Option.map_none, Option.none_or]
      exact substitute.eq_def r (var v d)
    | some u =>
      rw [Option.map_some, Option.some_or]
      exact substitute_arrayOf r u d

theorem substituteArg_andThen :
    ∀ a : TypeArg, substituteArg r (substituteArg s a) = substituteArg (s.andThen r) a
  | .wildcard => rfl
  | .exact t => by rw [substituteArg, substituteArg, substituteArg, substitute_andThen t]
  | .upper t => by rw [substituteArg, substituteArg, substituteArg, substitute_andThen t]
  | .lower t => by rw [substituteArg, substituteArg, substituteArg, substitute_andThen t]

theorem substituteArgs_andThen :
    ∀ as : List TypeArg, substituteArgs r (substituteArgs s as) = substituteArgs (s.andThen r) as
  | [] => rfl
  | a :: as => by
    rw [substituteArgs, substituteArgs, substituteArgs, substituteArg_andThen a,
      substituteArgs_andThen as]

end

end Composition

mutual

theorem substitute_nil : ∀ t : JType, t.substitute [] = t
  | prim _ _ | var _ _ => rfl
  | named n as d => by rw [substitute, substituteArgs_nil as]

theorem substituteArg_nil : ∀ a : TypeArg, substituteArg [] a = a
  | .wildcard => rfl
  | .exact t => by rw [substituteArg, substitute_nil t]
  | .upper t => by rw [substituteArg, substitute_nil t]
  | .lower t => by rw [substituteArg, substitute_nil t]

theorem substituteArgs_nil : ∀ as : List TypeArg, substituteArgs [] as = as
  | [] => rfl
  | a :: as => by rw [substituteArgs, substituteArg_nil a, substituteArgs_nil as]

end

end JType

/-- The third substitution has the values of the first, read through the second, and besides them
those that only the second has. -/
structure Substitution.Composed (s₁ s₂ s₃ : Substitution) : Prop where
  value : ∀ v t, s₁.lookup v = some t → s₃.lookup v = some (t.substitute s₂)
  rest : ∀ v, s₁.lookup v = none → s₃.lookup v = s₂.lookup v

theorem Substitution.composed_andThen (s r : Substitution) : Composed s r (s.andThen r) := by
  constructor
  · intro v t hv
    rw [lookup_andThen, hv, Option.map_some, Option.some_or]
  · intro v hv
    rw [lookup_andThen, hv, Option.map_none, Option.none_or]

theorem Substitution.Composed.lookup_eq {s₁ s₂ s₃ : Substitution} (h : Composed s₁ s₂ s₃)
    (v : String) : s₃.lookup v = (s₁.andThen s₂).lookup v := by
  cases hv : s₁.lookup v with
  | none => rw [h.rest v hv, (composed_andThen s₁ s₂).rest v hv]
  | some t => rw [h.value v t hv, (composed_andThen s₁ s₂).value v t hv]

/-- Any two substitutions can be composed, and applying them one after the other is applying what
they compose to, in every type and type argument. Depths may lie at the limit or reach it anywhere
on the way. -/
theorem JType.substitutions_compose (s₁ s₂ : Substitution) :
    Substitution.Composed s₁ s₂ (s₁.andThen s₂) ∧
      ∀ s₃, Substitution.Composed s₁ s₂ s₃ →
        (∀ t : JType, (t.substitute s₁).substitute s₂ = t.substitute s₃) ∧
          ∀ a : TypeArg, substituteArg s₂ (substituteArg s₁ a) = substituteArg s₃ a := by
  refine ⟨Substitution.composed_andThen s₁ s₂, fun s₃ h => ⟨fun t => ?_, fun a => ?_⟩⟩
  · rw [substitute_andThen, substitute_congr h.lookup_eq]
  · rw [substituteArg_andThen, substituteArg_congr h.lookup_eq]

/-- Each variable's value mentions the other variable. -/
def crossedValues : Substitution × Substitution :=
  ([("T", .var "U" 200)], [("U", .named "a/Box" [.exact (.var "T" 1)] 100)])

theorem JType.substitutions_compose_saturated :
    let s₃ : Substitution :=
      [("U", .named "a/Box" [.exact (.var "T" 1)] 100), ("T", .named "a/Box" [.exact (.var "T" 1)] 255)]
    let t : JType :=
      .named "a/Pair" [.exact (.var "T" 3), .lower (.named "a/List" [.upper (.var "U" 2)] 7)] 0
    Substitution.Composed crossedValues.1 crossedValues.2 s₃ ∧
      (t.substitute crossedValues.1).substitute crossedValues.2 = t.substitute s₃ ∧
      t.substitute s₃ =
        .named "a/Pair" [.exact (.named "a/Box" [.exact (.var "T" 1)] 255),
          .lower (.named "a/List" [.upper (.named "a/Box" [.exact (.var "T" 1)] 102)] 7)] 0 := by
  intro s₃ t
  have hone : ∀ (w : String) (u : JType) (v : String),
      [(w, u)].lookup v = if v = w then some u else none := fun w u => Table.find?_cons w u []
  have hfirst : ∀ v, crossedValues.1.lookup v = if v = "T" then some (.var "U" 200) else none :=
    hone _ _
  have hthird : ∀ v, s₃.lookup v =
      if v = "U" then some (.named "a/Box" [.exact (.var "T" 1)] 100)
      else if v = "T" then some (.named "a/Box" [.exact (.var "T" 1)] 255) else none := by
    intro v
    exact (Table.find?_cons _ _ _ v).trans (if_congr Iff.rfl rfl (hone _ _ v))
  have hcomposed : Substitution.Composed crossedValues.1 crossedValues.2 s₃ := by
    constructor
    · intro v u hv
      rw [hfirst] at hv
      split at hv
      next hT =>
        subst hT
        cases hv
        rfl
      next => cases hv
    · intro v hv
      rw [hfirst] at hv
      split at hv
      next => cases hv
      next hT =>
        rw [hthird, if_neg hT]
        exact (hone _ _ v).symm
  exact ⟨hcomposed, ((substitutions_compose _ _).2 s₃ hcomposed).1 t, rfl⟩

namespace Library

/-- What the entries of a way up supply, composed from its end to its start. -/
def suppliedAlong (l : Library) (path : List (Nat × JType)) : Substitution :=
  path.foldr (fun e s => s.andThen (l.supplied e.2)) []

/-- What a variable at the end of a route means at its start takes one substitution, however long
the route is. -/
theorem meaning_eq_substitute (l : Library) (before : List (Nat × JType)) (e : Nat × JType)
    (v : String) :
    l.meaning (before ++ [e]) v =
      ((l.supplied e.2).lookup v).map (JType.substitute (l.suppliedAlong before)) := by
  have hpath : ∀ x : JType, before.foldr (fun e y => JType.substitute (l.supplied e.2) y) x =
      x.substitute (l.suppliedAlong before) := by
    intro x
    induction before with
    | nil => exact x.substitute_nil.symm
    | cons e before ih => rw [List.foldr_cons, ih, JType.substitute_andThen]; rfl
  rw [meaning_append]
  exact Option.map_congr fun x _ => hpath x

end Library

end ClassSketch
