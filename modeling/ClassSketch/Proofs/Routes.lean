import ClassSketch.Class.Ancestry
import ClassSketch.Proofs.Tables
import Mathlib.Logic.Relation

/-! The classes above a class. A route leads from a class to one of its direct supertypes, and on
from there. Of several routes to the same ancestor the first one counts, where supertypes are tried
in the order of their declaration; it says what the ancestor's variables mean. -/

namespace ClassSketch

open Relation

/-- The type that an argument stands for: the bound of a wildcard, `Object` if it has none. -/
def TypeArg.standsFor : TypeArg → JType
  | .wildcard => .object
  | .exact t | .upper t | .lower t => t

namespace JType

mutual

theorem substitute_congr {s r : Substitution} (h : ∀ v, s.lookup v = r.lookup v) :
    ∀ t : JType, t.substitute s = t.substitute r
  | prim _ _ => rfl
  | named _ as _ => by rw [substitute, substitute, substituteArgs_congr h as]
  | var v _ => by rw [substitute, substitute, h v]

theorem substituteArg_congr {s r : Substitution} (h : ∀ v, s.lookup v = r.lookup v) :
    ∀ a : TypeArg, substituteArg s a = substituteArg r a
  | .wildcard => rfl
  | .exact t => by rw [substituteArg, substituteArg, substitute_congr h t]
  | .upper t => by rw [substituteArg, substituteArg, substitute_congr h t]
  | .lower t => by rw [substituteArg, substituteArg, substitute_congr h t]

theorem substituteArgs_congr {s r : Substitution} (h : ∀ v, s.lookup v = r.lookup v) :
    ∀ as : List TypeArg, substituteArgs s as = substituteArgs r as
  | [] => rfl
  | a :: as => by
    rw [substituteArgs, substituteArgs, substituteArg_congr h a, substituteArgs_congr h as]

end

end JType

namespace Library

/-- The signature that is served for a class: the one pooled under its name, or else its own. -/
def served (l : Library) (c : ClassDecl) : Option ClassSignature :=
  match l.mode with
  | .pooled => (l.pool.lookup c.name).getD c.readableSignature?
  | _ => c.readableSignature?

def signatureOf (l : Library) (name : String) : Option ClassSignature :=
  (l.find? name).bind l.served

/-- The direct supertypes in the order of their declaration, those of the signature if there is
one. -/
def directSupertypes (l : Library) (name : String) : List JType :=
  match l.find? name with
  | none => []
  | some c =>
    match l.served c with
    | some s => s.superclass :: s.interfaces
    | none => (c.superclass.toList ++ c.interfaces).map JType.ofClass

/-- The declared type parameters, none if the class is missing or has no readable signature. -/
def parametersOf (l : Library) (name : String) : List String :=
  match l.signatureOf name with
  | none => []
  | some s => s.paramNames

/-- The values that a supertype gives to the parameters of its class, by position. Of two parameters
with the same name the later one counts. -/
def supplied (l : Library) (t : JType) : Substitution :=
  match t.className? with
  | none => []
  | some d => ((l.parametersOf d).zip (t.args.map TypeArg.standsFor)).reverse

/-- The supertype at a position of a class's direct supertypes, and the class it names. -/
def Entry (l : Library) (c : String) (i : Nat) (t : JType) (d : String) : Prop :=
  (l.directSupertypes c)[i]? = some t ∧ t.className? = some d

def Extends (l : Library) (c d : String) : Prop := ∃ i t, l.Entry c i t d

/-- A way up from class to class, as the positions and entries of the supertypes it takes. -/
inductive Route (l : Library) : String → List (Nat × JType) → String → Prop
  | here (c : String) : Route l c [] c
  | up {c d a : String} {i : Nat} {t : JType} {path : List (Nat × JType)}
      (entry : l.Entry c i t d) (above : Route l d path a) : Route l c ((i, t) :: path) a

def positions (path : List (Nat × JType)) : List Nat := path.map (·.1)

/-- No other route to the same class goes before this one. -/
structure FirstRoute (l : Library) (c : String) (path : List (Nat × JType)) (a : String) :
    Prop where
  route : l.Route c path a
  first : ∀ other, l.Route c other a → ¬ List.Lex (· < ·) (positions other) (positions path)

/-- The value of a variable at the end of a route: the argument of the last entry, read through the
arguments of the entries before it. -/
def meaning (l : Library) : List (Nat × JType) → String → Option JType
  | [], _ => none
  | [e], v => (l.supplied e.2).lookup v
  | e :: e' :: path, v => (l.meaning (e' :: path) v).map (JType.substitute (l.supplied e.2))

theorem meaning_append (l : Library) (before : List (Nat × JType)) (e : Nat × JType) (v : String) :
    l.meaning (before ++ [e]) v = ((l.supplied e.2).lookup v).map fun x =>
      before.foldr (fun e y => JType.substitute (l.supplied e.2) y) x := by
  induction before with
  | nil => simp [meaning]
  | cons b before ih =>
    cases before with
    | nil => rfl
    | cons b' before =>
      rw [List.cons_append] at ih
      rw [List.cons_append, List.cons_append, meaning, ih, Option.map_map]
      rfl

variable {l : Library} {a c d : String} {i k : Nat} {t u : JType} {path : List (Nat × JType)}

theorem exists_route_iff : (∃ path, l.Route c path a) ↔ ReflTransGen l.Extends c a := by
  constructor
  · rintro ⟨path, h⟩
    induction h with
    | here c => exact .refl
    | up entry above ih => exact .head ⟨_, _, entry⟩ ih
  · intro h
    induction h using ReflTransGen.head_induction_on with
    | refl => exact ⟨[], .here a⟩
    | head step _ ih =>
      obtain ⟨i, t, entry⟩ := step
      obtain ⟨path, above⟩ := ih
      exact ⟨(i, t) :: path, .up entry above⟩

theorem Entry.unique (h : l.Entry c i t d) {e : String} (h' : l.Entry c i u e) : t = u ∧ d = e := by
  obtain rfl := Option.some.inj (h.1.symm.trans h'.1)
  exact ⟨rfl, Option.some.inj (h.2.symm.trans h'.2)⟩

theorem Route.eq_of_positions (h : l.Route c path a) {other : List (Nat × JType)} {b : String}
    (h' : l.Route c other b) (hp : positions path = positions other) : path = other := by
  induction h generalizing other with
  | here c =>
    cases h' with
    | here => rfl
    | up => cases hp
  | up entry above ih =>
    cases h' with
    | here => cases hp
    | up entry' above' =>
      obtain ⟨rfl, htail⟩ := List.cons.inj hp
      obtain ⟨rfl, rfl⟩ := entry.unique entry'
      rw [ih above' htail]

theorem Route.className?_last {before : List (Nat × JType)} {e : Nat × JType}
    (h : l.Route c (before ++ [e]) a) : e.2.className? = some a := by
  induction before generalizing c with
  | nil =>
    cases h with
    | up entry above =>
      cases above
      exact entry.2
  | cons b before ih =>
    cases h with
    | up entry above => exact ih above

theorem lookup_supplied (ht : t.className? = some d) (hdistinct : (l.parametersOf d).Nodup)
    {v : String} {x : JType} : (l.supplied t).lookup v = some x ↔ ∃ (i : Nat) (arg : TypeArg),
      (l.parametersOf d)[i]? = some v ∧ t.args[i]? = some arg ∧ arg.standsFor = x := by
  have hmem : ∀ {y}, (v, y) ∈ l.supplied t ↔ ∃ (i : Nat) (arg : TypeArg),
      (l.parametersOf d)[i]? = some v ∧ t.args[i]? = some arg ∧ arg.standsFor = y := by
    intro y
    rw [supplied, ht, List.mem_reverse, List.mem_iff_getElem?]
    simp only [List.getElem?_zip_eq_some, List.getElem?_map, Option.map_eq_some_iff,
      exists_and_left]
  refine ⟨fun h => hmem.mp (Table.mem_of_find? h), fun h => ?_⟩
  obtain ⟨y, hy⟩ : ∃ y, Table.find? (l.supplied t) v = some y :=
    Table.mem_keys_iff.mp (List.mem_map_of_mem (hmem.mpr h))
  obtain ⟨i, arg, hi, harg, rfl⟩ := h
  obtain ⟨j, arg', hj, harg', rfl⟩ := hmem.mp (Table.mem_of_find? hy)
  have hbound : i < (l.parametersOf d).length := (List.getElem?_eq_some_iff.mp hi).1
  obtain rfl : i = j := (List.getElem?_inj hbound hdistinct).mp (hi.trans hj.symm)
  obtain rfl := Option.some.inj (harg.symm.trans harg')
  exact hy

theorem FirstRoute.unique (h : l.FirstRoute c path a) {other : List (Nat × JType)}
    (h' : l.FirstRoute c other a) : path = other := by
  refine h.route.eq_of_positions h'.route ?_
  exact List.le_antisymm (h.first other h'.route) (h'.first path h.route)

theorem FirstRoute.here (l : Library) (c : String) : l.FirstRoute c [] c :=
  ⟨.here c, fun other _ => List.not_lt_nil (positions other)⟩

/-- If no earlier supertype leads to a class, its first route begins with this one. -/
theorem FirstRoute.up (hne : a ≠ c) (entry : l.Entry c k t d)
    (hbefore : ∀ i < k, ∀ u b, l.Entry c i u b → ¬ ReflTransGen l.Extends b a)
    (h : l.FirstRoute d path a) : l.FirstRoute c ((k, t) :: path) a := by
  refine ⟨.up entry h.route, fun other hroute hlex => ?_⟩
  cases hroute with
  | here => exact hne rfl
  | up entry' above =>
    cases hlex with
    | rel hlt => exact hbefore _ hlt _ _ entry' (exists_route_iff.mp ⟨_, above⟩)
    | cons hlex =>
      obtain ⟨rfl, rfl⟩ := entry.unique entry'
      exact h.first _ above hlex

/-- What the variables of an ancestor mean is read off along the first route to it. -/
def Meant (l : Library) (c a : String) (s : Table String JType) : Prop :=
  ∃ path, l.FirstRoute c path a ∧ s.Ascending ∧ ∀ v, s.find? v = l.meaning path v

/-- A table has the classes on the routes from a class, and no chain of supertypes from it is
endless. -/
structure Covers (l : Library) (d : String) (table : Table String Substitution) : Prop where
  found : ∀ {a s}, a ≠ d → table.find? a = some s → l.Meant d a s
  missing : ∀ {a}, a ≠ d → table.find? a = none → ¬ ReflTransGen l.Extends d a
  grounded : Acc (Function.swap l.Extends) d

/-- A table has the class itself and what is above its first `k` direct supertypes. -/
structure Gathered (l : Library) (c : String) (k : Nat) (table : Table String Substitution) :
    Prop where
  ascending : table.Ascending
  own : table.find? c = some (Genealogy.identity (l.signatureOf c))
  found : ∀ {a s}, a ≠ c → table.find? a = some s → l.Meant c a s
  missing : ∀ {a}, a ≠ c → table.find? a = none →
    ∀ i < k, ∀ t d, l.Entry c i t d → ¬ ReflTransGen l.Extends d a
  grounded : ∀ i < k, ∀ t d, l.Entry c i t d → Acc (Function.swap l.Extends) d

theorem not_entry_of_find?_eq_none (h : l.find? c = none) : ¬ l.Entry c i t d := by
  rintro ⟨hentry, _⟩
  rw [directSupertypes, h] at hentry
  cases hentry

/-- Nothing is above a class that is missing from the library. -/
theorem covers_nil (h : l.find? d = none) : l.Covers d [] where
  found _ hfind := nomatch hfind
  missing hne _ hreach := by
    obtain rfl | ⟨_, ⟨i, t, entry⟩, _⟩ := hreach.cases_head
    · exact hne rfl
    · exact not_entry_of_find?_eq_none h entry
  grounded := ⟨_, fun _ ⟨_, _, entry⟩ => absurd entry (not_entry_of_find?_eq_none h)⟩

theorem not_transGen_of_acc (h : Acc (Function.swap l.Extends) c) :
    ¬ TransGen l.Extends c c := by
  induction h with
  | intro c _ ih =>
    intro hcycle
    obtain ⟨b, hstep, hback⟩ := TransGen.head'_iff.mp hcycle
    exact ih b hstep (.tail' hback hstep)

namespace Gathered

variable {table up : Table String Substitution} {arguments : Table String JType}

theorem start (l : Library) (c : String) :
    l.Gathered c 0 [(c, Genealogy.identity (l.signatureOf c))] where
  ascending := List.pairwise_singleton _ _
  own := Table.find?_self _ _
  found hne hfind := by
    rw [Table.find?_cons, if_neg hne] at hfind
    cases hfind
  missing _ _ i hi := absurd hi (Nat.not_lt_zero i)
  grounded i hi := absurd hi (Nat.not_lt_zero i)

theorem skip (h : l.Gathered c k table) (hentry : (l.directSupertypes c)[k]? = some t)
    (hname : t.className? = none) : l.Gathered c (k + 1) table := by
  have hearlier : ∀ i < k + 1, ∀ u d, l.Entry c i u d → i < k := by
    intro i hi u d entry
    refine Nat.lt_of_le_of_ne (Nat.le_of_lt_succ hi) ?_
    rintro rfl
    obtain rfl := Option.some.inj (hentry.symm.trans entry.1)
    cases hname.symm.trans entry.2
  exact ⟨h.ascending, h.own, h.found,
    fun hne hfind i hi u d entry => h.missing hne hfind i (hearlier i hi u d entry) u d entry,
    fun i hi u d entry => h.grounded i (hearlier i hi u d entry) u d entry⟩

theorem find?_step (h : table.Ascending) (arguments : Substitution) (d a : String) :
    (Genealogy.inherit arguments ⟨d, up⟩ (table.insertNew d arguments)).find? a =
      (if a = d then some ((table.find? d).getD arguments) else table.find? a).or
        ((up.find? a).map (Table.mapValues (JType.substitute arguments))) := by
  rw [Genealogy.inherit, Table.insertNew, (h.alter d _).find?_absorb, Table.find?_mapValues,
    h.find?_alter]

theorem find?_step_of_some (h : table.Ascending) (arguments : Substitution) (d : String)
    {s : Substitution} (hs : table.find? a = some s) :
    (Genealogy.inherit arguments ⟨d, up⟩ (table.insertNew d arguments)).find? a = some s := by
  rw [find?_step h]
  split
  · next hd => rw [← hd, hs]; rfl
  · rw [hs]; rfl

theorem meant_step (h : l.Gathered c k table) (entry : l.Entry c k t d) (hup : l.Covers d up)
    (harguments : arguments.Ascending)
    (hlookup : ∀ v, arguments.find? v = (l.supplied t).lookup v) (hne : a ≠ c)
    (hnew : table.find? a = none) {s : Substitution}
    (hs : (Genealogy.inherit arguments ⟨d, up⟩ (table.insertNew d arguments)).find? a = some s) :
    l.Meant c a s := by
  have hbefore := h.missing hne hnew
  rw [find?_step h.ascending, hnew] at hs
  -- A class that is new is the supertype itself or stands above it.
  by_cases hd : a = d
  · subst hd
    rw [if_pos rfl, hnew] at hs
    obtain rfl := Option.some.inj hs
    exact ⟨_, .up hne entry hbefore (.here l a), harguments, hlookup⟩
  · rw [if_neg hd, Option.none_or] at hs
    obtain ⟨below, hbelow, rfl⟩ := Option.map_eq_some_iff.mp hs
    obtain ⟨path, hfirst, hascending, hmeaning⟩ := hup.found hd hbelow
    refine ⟨_, .up hne entry hbefore hfirst, hascending.mapValues _, fun v => ?_⟩
    have hsubstitute : JType.substitute arguments = JType.substitute (l.supplied t) :=
      funext fun u => u.substitute_congr hlookup
    cases path with
    | nil =>
      cases hfirst.route
      exact absurd rfl hd
    | cons e path => rw [Table.find?_mapValues, hmeaning, hsubstitute, meaning]

/-- The classes above a supertype are added, read through its arguments. -/
theorem step (h : l.Gathered c k table) (entry : l.Entry c k t d) (hup : l.Covers d up)
    (harguments : arguments.Ascending)
    (hlookup : ∀ v, arguments.find? v = (l.supplied t).lookup v) :
    l.Gathered c (k + 1) (Genealogy.inherit arguments ⟨d, up⟩ (table.insertNew d arguments)) where
  ascending := (h.ascending.alter d _).absorb _
  own := find?_step_of_some h.ascending arguments d h.own
  found {a s} hne hs := by
    cases ha : table.find? a with
    | some s' =>
      rw [find?_step_of_some h.ascending arguments d ha] at hs
      obtain rfl := Option.some.inj hs
      exact h.found hne ha
    | none => exact meant_step h entry hup harguments hlookup hne ha hs
  missing {a} hne hs i hi u b entry' := by
    have hnew : table.find? a = none := by
      cases ha : table.find? a with
      | none => rfl
      | some s => cases (find?_step_of_some h.ascending arguments d ha).symm.trans hs
    rcases Nat.lt_succ_iff_lt_or_eq.mp hi with hi | rfl
    · exact h.missing hne hnew i hi u b entry'
    · obtain ⟨rfl, rfl⟩ := entry.unique entry'
      rw [find?_step h.ascending, hnew] at hs
      by_cases hd : a = d
      · rw [if_pos hd] at hs
        cases hs
      · rw [if_neg hd, Option.none_or, Option.map_eq_none_iff] at hs
        exact hup.missing hd hs
  grounded i hi u b entry' := by
    rcases Nat.lt_succ_iff_lt_or_eq.mp hi with hi | rfl
    · exact h.grounded i hi u b entry'
    · obtain ⟨rfl, rfl⟩ := entry.unique entry'
      exact hup.grounded

end Gathered

/-- The ancestors of a class with all its direct supertypes done. -/
def Traced (l : Library) (c : String) (table : Table String Substitution) : Prop :=
  l.Gathered c (l.directSupertypes c).length table

namespace Traced

variable {table other : Table String Substitution}

theorem covers (h : l.Traced c table) : l.Covers c table := by
  have hbound : ∀ {i t d}, l.Entry c i t d → i < (l.directSupertypes c).length :=
    fun entry => (List.getElem?_eq_some_iff.mp entry.1).1
  refine ⟨h.found, fun hne hfind hreach => ?_, ⟨_, fun d ⟨i, t, entry⟩ => ?_⟩⟩
  · obtain rfl | ⟨d, ⟨i, t, entry⟩, hreach⟩ := hreach.cases_head
    · exact hne rfl
    · exact h.missing hne hfind i (hbound entry) t d entry hreach
  · exact h.grounded i (hbound entry) t d entry

theorem mem_keys_iff (h : l.Traced c table) : a ∈ table.keys ↔ ReflTransGen l.Extends c a := by
  rw [Table.mem_keys_iff]
  by_cases ha : a = c
  · subst ha
    exact iff_of_true ⟨_, h.own⟩ .refl
  · constructor
    · rintro ⟨s, hs⟩
      obtain ⟨path, hfirst, _⟩ := h.found ha hs
      exact exists_route_iff.mp ⟨path, hfirst.route⟩
    · intro hreach
      cases hs : table.find? a with
      | some s => exact ⟨s, rfl⟩
      | none => exact absurd hreach (h.covers.missing ha hs)

/-- A class of the library has only one table of ancestors. -/
theorem unique (h : l.Traced c table) (h' : l.Traced c other) : table = other := by
  refine h.ascending.ext h'.ascending fun a => ?_
  by_cases ha : a = c
  · subst ha
    rw [h.own, h'.own]
  cases hs : table.find? a with
  | none =>
    cases hs' : other.find? a with
    | none => rfl
    | some s' =>
      obtain ⟨path, hfirst, _⟩ := h'.found ha hs'
      exact absurd (exists_route_iff.mp ⟨path, hfirst.route⟩) (h.covers.missing ha hs)
  | some s =>
    obtain ⟨path, hfirst, hascending, hmeaning⟩ := h.found ha hs
    cases hs' : other.find? a with
    | none => exact absurd (exists_route_iff.mp ⟨path, hfirst.route⟩) (h'.covers.missing ha hs')
    | some s' =>
      obtain ⟨path', hfirst', hascending', hmeaning'⟩ := h'.found ha hs'
      obtain rfl := hfirst.unique hfirst'
      rw [hascending.ext hascending' fun v => (hmeaning v).trans (hmeaning' v).symm]

end Traced

end Library

end ClassSketch
