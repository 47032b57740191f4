import ClassSketch.Proofs.Ancestors

/-! The type variables in the values that an ancestry gives. A supertype that leaves parameters of its
class open, as a raw one does, lets them through: they show up in the values of the classes above it.
All other variables are parameters of the class itself. -/

namespace ClassSketch

namespace JType

mutual

/-- The type variables in a type, in the order of their places. -/
def vars : JType → List String
  | prim _ _ => []
  | named _ as _ => argsVars as
  | var v _ => [v]

def argVars : TypeArg → List String
  | .wildcard => []
  | .exact t | .upper t | .lower t => vars t

def argsVars : List TypeArg → List String
  | [] => []
  | a :: as => argVars a ++ argsVars as

end

theorem vars_arrayOf (t : JType) (d : Nat) : (t.arrayOf d).vars = t.vars := by
  cases t <;> rfl

theorem vars_standsFor (a : TypeArg) : a.standsFor.vars = argVars a := by
  cases a <;> rfl

theorem argVars_subset {a : TypeArg} {as : List TypeArg} (h : a ∈ as) :
    argVars a ⊆ argsVars as := by
  induction as with
  | nil => cases h
  | cons b as ih =>
    rw [argsVars]
    rcases List.mem_cons.mp h with rfl | h
    · exact List.subset_append_left _ _
    · exact List.Subset.trans (ih h) (List.subset_append_right _ _)

theorem argsVars_args (t : JType) : argsVars t.args ⊆ t.vars := by
  cases t with
  | prim p d => exact List.nil_subset _
  | named n as d => exact List.Subset.refl _
  | var v d => exact List.nil_subset _

section

variable {s : Substitution} {w : String}

/-- A variable comes through a substitution that has no value for it, or it is in a value. -/
def Through (s : Substitution) (before : List String) (w : String) : Prop :=
  w ∈ before ∧ s.lookup w = none ∨ ∃ v t, s.lookup v = some t ∧ w ∈ t.vars

theorem Through.mono {before after : List String} (h : Through s before w) (hsub : before ⊆ after) :
    Through s after w :=
  h.imp_left fun hw => ⟨hsub hw.1, hw.2⟩

mutual

theorem through_of_mem_substitute :
    ∀ t : JType, w ∈ (t.substitute s).vars → Through s t.vars w
  | prim _ _, h => by cases h
  | named _ as _, h => through_of_mem_substituteArgs as h
  | var v d, h => by
    rw [substitute] at h
    cases hv : s.lookup v with
    | some t =>
      rw [hv] at h
      exact .inr ⟨v, t, hv, by rwa [vars_arrayOf] at h⟩
    | none =>
      rw [hv] at h
      obtain rfl := List.mem_singleton.mp h
      exact .inl ⟨h, hv⟩

theorem through_of_mem_substituteArg :
    ∀ a : TypeArg, w ∈ argVars (substituteArg s a) → Through s (argVars a) w
  | .wildcard, h => by cases h
  | .exact t, h | .upper t, h | .lower t, h => through_of_mem_substitute t h

theorem through_of_mem_substituteArgs :
    ∀ as : List TypeArg, w ∈ argsVars (substituteArgs s as) → Through s (argsVars as) w
  | [], h => by cases h
  | a :: as, h => by
    rcases List.mem_append.mp h with h | h
    · exact (through_of_mem_substituteArg a h).mono (List.subset_append_left _ _)
    · exact (through_of_mem_substituteArgs as h).mono (List.subset_append_right _ _)

end

end

end JType

namespace Library

/-- Supertypes mention only the parameters that their own signature declares. -/
def Scoped (l : Library) : Prop :=
  ∀ c ∈ l.classes, ∀ s ∈ l.served c, ∀ t ∈ s.superclass :: s.interfaces, ∀ v ∈ t.vars,
    v ∈ s.paramNames

instance (l : Library) : Decidable l.Scoped :=
  inferInstanceAs (Decidable (∀ c ∈ l.classes, ∀ s ∈ l.served c,
    ∀ t ∈ s.superclass :: s.interfaces, ∀ v ∈ t.vars, v ∈ s.paramNames))

/-- A supertype gives no argument to a parameter of its class. -/
def LeavesOpen (l : Library) (t : JType) (v : String) : Prop :=
  ∃ d, t.className? = some d ∧ v ∈ l.parametersOf d ∧ (l.supplied t).lookup v = none

/-- A supertype on a path leaves a variable open, and the supertypes before it have no value for
it. -/
def LetThrough (l : Library) (path : List (Nat × JType)) (v : String) : Prop :=
  ∃ before e after, path = before ++ e :: after ∧ l.LeavesOpen e.2 v ∧
    ∀ b ∈ before, (l.supplied b.2).lookup v = none

variable {l : Library} {c a v : String} {path : List (Nat × JType)}

theorem LetThrough.cons (h : l.LetThrough path v) {e : Nat × JType}
    (he : (l.supplied e.2).lookup v = none) : l.LetThrough (e :: path) v := by
  obtain ⟨before, o, after, rfl, hopen, hbefore⟩ := h
  exact ⟨e :: before, o, after, rfl, hopen, List.forall_mem_cons.mpr ⟨he, hbefore⟩⟩

theorem Scoped.directSupertypes (h : l.Scoped) {t : JType} (ht : t ∈ l.directSupertypes c) :
    t.vars ⊆ l.parametersOf c := by
  rw [Library.directSupertypes] at ht
  rw [parametersOf, signatureOf]
  cases hc : l.find? c with
  | none =>
    rw [hc] at ht
    cases ht
  | some d =>
    simp only [hc] at ht
    rw [Option.bind_some]
    cases hs : l.served d with
    | some s =>
      rw [hs] at ht
      exact h d (List.mem_of_find?_eq_some hc) s hs t ht
    | none =>
      rw [hs] at ht
      obtain ⟨n, _, rfl⟩ := List.mem_map.mp ht
      exact List.nil_subset _

/-- What a supertype supplies has no other variables than the supertype. -/
theorem vars_supplied {t y : JType} (h : (l.supplied t).lookup v = some y) :
    y.vars ⊆ t.vars := by
  have hmem : (v, y) ∈ l.supplied t := Table.mem_of_find? h
  rw [supplied] at hmem
  cases hd : t.className? with
  | none =>
    rw [hd] at hmem
    cases hmem
  | some d =>
    simp only [hd] at hmem
    obtain ⟨arg, harg, rfl⟩ := List.mem_map.mp (List.of_mem_zip (List.mem_reverse.mp hmem)).2
    rw [JType.vars_standsFor]
    exact List.Subset.trans (JType.argVars_subset harg) (JType.argsVars_args t)

/-- Along a route: each variable of a value is a parameter of the class that the route starts from,
or a supertype before the last one lets it through. -/
theorem Scoped.meaning (h : l.Scoped) (hroute : l.Route c path a) {y : JType}
    (hy : l.meaning path v = some y) {w : String} (hw : w ∈ y.vars) :
    w ∈ l.parametersOf c ∨ l.LetThrough path.dropLast w := by
  induction hroute generalizing y w with
  | here c => cases hy
  | @up c d a i t path entry above ih =>
    have hsupplied : ∀ {u z}, (l.supplied t).lookup u = some z → z.vars ⊆ l.parametersOf c :=
      fun hz => List.Subset.trans (vars_supplied hz)
        (h.directSupertypes (List.mem_of_getElem? entry.1))
    cases path with
    | nil => exact .inl (hsupplied hy hw)
    | cons e path =>
      rw [Library.meaning, Option.map_eq_some_iff] at hy
      obtain ⟨z, hz, rfl⟩ := hy
      rw [List.dropLast_cons_cons]
      rcases JType.through_of_mem_substitute z hw with ⟨hw, hopen⟩ | ⟨u, x, hu, hw⟩
      · -- The variable was there before; it is a parameter of `d` or was let through above.
        rcases ih hz hw with hd | hlet
        · exact .inr ⟨[], (i, t), _, rfl, ⟨d, entry.2, hd, hopen⟩, fun _ hb => by cases hb⟩
        · exact .inr (hlet.cons hopen)
      · exact .inl (hsupplied hu hw)

end Library

namespace Genealogy

theorem vars_identity {l : Library} {name v w : String} {y : JType}
    (h : (identity (l.signatureOf name)).lookup v = some y) (hw : w ∈ y.vars) :
    w ∈ l.parametersOf name := by
  rw [Library.parametersOf]
  cases hs : l.signatureOf name with
  | none =>
    rw [hs] at h
    cases h
  | some s =>
    rw [hs] at h
    have hlookup : _ = some y := (find?_ofParameters _ v).symm.trans h
    have hmem := List.mem_reverse.mp (Table.mem_of_find? hlookup)
    obtain ⟨p, hp, heq⟩ := List.mem_map.mp hmem
    cases heq
    obtain rfl := List.mem_singleton.mp hw
    exact hp

theorem exists_value_of_resolve {r : Except AncestryError Ancestry} {ancestor v : String}
    {vs : List String}
    (h : (r.toOption.bind (·.resolve? ancestor v)).map JType.vars = some vs) :
    ∃ a s y, r = .ok a ∧ a.substitution? ancestor = some s ∧ s.lookup v = some y ∧
      y.vars = vs := by
  obtain ⟨y, hy, hvars⟩ := Option.map_eq_some_iff.mp h
  obtain ⟨a, ha, hresolve⟩ := Option.bind_eq_some_iff.mp hy
  obtain ⟨s, hs, hlookup⟩ := Option.bind_eq_some_iff.mp hresolve
  cases r with
  | error e => cases ha
  | ok b =>
    cases ha
    exact ⟨a, s, y, rfl, hs, hlookup, hvars⟩

/-- Each variable in a value of an ancestor is a parameter of the class itself, or a supertype on the
first route to the ancestor, not the last one, leaves it open. If these supertypes leave nothing open,
no variable of another class shows. -/
theorem vars_of_ancestor_values (l : Library) (hscoped : l.Scoped) (queries : List String)
    {name ancestor v : String} {a : Ancestry} {s : Substitution} {y : JType}
    (hok : (ancestry name (asked l queries)).1 = .ok a) (hs : a.substitution? ancestor = some s)
    (hy : s.lookup v = some y) :
    ∃ path, l.FirstRoute name path ancestor ∧
      (∀ w ∈ y.vars, w ∈ l.parametersOf name ∨ l.LetThrough path.dropLast w) ∧
      ((∀ e ∈ path.dropLast, ∀ w, ¬ l.LeavesOpen e.2 w) →
        ∀ w ∈ y.vars, w ∈ l.parametersOf name) := by
  have hanswer := ((sound_asked l queries).ancestry name).1
  obtain ⟨_, htraced⟩ := (hok ▸ hanswer).of_ok
  suffices h : ∃ path, l.FirstRoute name path ancestor ∧
      ∀ w ∈ y.vars, w ∈ l.parametersOf name ∨ l.LetThrough path.dropLast w by
    obtain ⟨path, hfirst, hvars⟩ := h
    refine ⟨path, hfirst, hvars, fun hclosed w hw => (hvars w hw).resolve_right ?_⟩
    rintro ⟨before, e, after, hpath, hopen, _⟩
    exact hclosed e (by simp [hpath]) w hopen
  by_cases hself : ancestor = name
  · subst hself
    obtain rfl : s = _ := Option.some.inj (hs.symm.trans htraced.own)
    exact ⟨[], .here l ancestor, fun w hw => .inl (vars_identity hy hw)⟩
  · obtain ⟨path, hfirst, _, hmeaning⟩ := htraced.found hself hs
    have hvalue : l.meaning path v = some y := (hmeaning v).symm.trans hy
    exact ⟨path, hfirst, fun w hw => hscoped.meaning hfirst.route hvalue hw⟩

theorem vars_of_ancestor_values_diamond :
    ∃ a s y, diamond.Scoped ∧ (ancestry "A" (asked diamond ["B"])).1 = .ok a ∧
      a.substitution? "M" = some s ∧ s.lookup "K" = some y ∧ y.vars = ["T"] ∧
      ∃ path, diamond.FirstRoute "A" path "M" ∧
        (∀ w ∈ y.vars, w ∈ diamond.parametersOf "A" ∨ diamond.LetThrough path.dropLast w) ∧
        ((∀ e ∈ path.dropLast, ∀ w, ¬ diamond.LeavesOpen e.2 w) →
          ∀ w ∈ y.vars, w ∈ diamond.parametersOf "A") := by
  have hscoped : diamond.Scoped := by decide +kernel
  have hresolve : ((ancestry "A" (asked diamond ["B"])).1.toOption.bind
      (·.resolve? "M" "K")).map JType.vars = some ["T"] := by decide +kernel
  obtain ⟨a, s, y, hok, hs, hy, hvars⟩ := exists_value_of_resolve hresolve
  exact ⟨a, s, y, hscoped, hok, hs, hy, hvars,
    vars_of_ancestor_values diamond hscoped ["B"] hok hs hy⟩

/-- `R` extends `A` without arguments. -/
def rawLine : Library := Library.ofList
  [{ name := "Z", signature := some "<V:LO;>LO;" },
   { name := "A", superclass := some "Z", signature := some "<T:LO;>LZ<TT;>;" },
   { name := "R", superclass := some "A" }]

/-- The parameter of `A` is in the value of a variable that `R` sees. -/
theorem open_variable_of_raw_supertype : rawLine.Scoped ∧ ∃ a s y,
    (ancestry "R" (asked rawLine [])).1 = .ok a ∧ a.substitution? "Z" = some s ∧
      s.lookup "V" = some y ∧ y.vars = ["T"] ∧ "T" ∉ rawLine.parametersOf "R" := by
  have hscoped : rawLine.Scoped := by decide +kernel
  have hresolve : ((ancestry "R" (asked rawLine [])).1.toOption.bind
      (·.resolve? "Z" "V")).map JType.vars = some ["T"] := by decide +kernel
  have hforeign : "T" ∉ rawLine.parametersOf "R" := by decide +kernel
  obtain ⟨a, s, y, hok, hs, hy, hvars⟩ := exists_value_of_resolve hresolve
  exact ⟨hscoped, a, s, y, hok, hs, hy, hvars, hforeign⟩

end Genealogy

end ClassSketch
