import ClassSketch.Proofs.LoadOrder

/-! How classes get their names while entries are read. Under every policy a name is chosen when an
entry first gives one, and all claims about the class are taken in under it. -/

namespace ClassSketch

/-- The name that the first of some entries gives to a class. -/
def firstName? (es : List NestingEntry) (inner : String) : Option String :=
  es.findSome? fun e => if e.inner = inner then e.simpleName else none

theorem firstName?_concat (es : List NestingEntry) (e : NestingEntry) (inner : String) :
    firstName? (es ++ [e]) inner =
      (firstName? es inner).or (if e.inner = inner then e.simpleName else none) := by
  rw [firstName?, List.findSome?_append, firstName?, List.findSome?_singleton]

theorem exists_entry_of_firstName? {es : List NestingEntry} {inner name : String}
    (h : firstName? es inner = some name) :
    ∃ e ∈ es, e.inner = inner ∧ e.simpleName = some name := by
  obtain ⟨e, he, hname⟩ := List.exists_of_findSome?_eq_some h
  split at hname
  · next hinner => exact ⟨e, he, hinner, hname⟩
  · cases hname

namespace Claim

/-- The claim of a class that goes by another name than the claim gives. -/
def called (c : Claim) (name : String) : Claim :=
  { c with
    simpleName := some name
    renamedFrom := if some name = c.simpleName then none else c.simpleName }

/-- The claim as it is taken in when its class goes by a name. Without a name it stays as it is. -/
def named (nameOf : String → String) (c : Claim) : Claim :=
  match c.simpleName with
  | none => c
  | some _ => c.called (nameOf c.inner)

section Named

variable (nameOf : String → String) (c : Claim)

theorem named_of_some {simple : String} (h : c.simpleName = some simple) :
    c.named nameOf = c.called (nameOf c.inner) := by
  rw [named, h]

theorem named_eq : c.named nameOf =
    { c with
      simpleName := (c.named nameOf).simpleName, renamedFrom := (c.named nameOf).renamedFrom } := by
  obtain ⟨_, _, simpleName, _, _, _, _⟩ := c
  cases simpleName <;> rfl

@[simp] theorem inner_named : (c.named nameOf).inner = c.inner := by rw [named_eq]

@[simp] theorem enclosing_named : (c.named nameOf).enclosing = c.enclosing := by rw [named_eq]

@[simp] theorem kind_named : (c.named nameOf).kind = c.kind := by rw [named_eq]

@[simp] theorem access_named : (c.named nameOf).access = c.access := by rw [named_eq]

@[simp] theorem source_named : (c.named nameOf).source = c.source := by rw [named_eq]

@[simp] theorem simpleName_named :
    (c.named nameOf).simpleName = c.simpleName.map fun _ => nameOf c.inner := by
  cases h : c.simpleName with
  | none => rw [named, h, Option.map_none, h]
  | some simple => rw [named_of_some nameOf c h, called, Option.map_some]

end Named

end Claim

namespace Ground

/-- The entries with the classes that they are from, in the order in which they are read. -/
def sourced (g : Ground) : List (String × NestingEntry) :=
  g.classes.flatMap fun d => d.nestingEntries.map fun e => (d.name, e)

theorem entries_eq (g : Ground) : g.entries = g.sourced.map (·.2) := by
  simp [entries, sourced, List.map_flatMap, Function.comp_def]

theorem claims_eq (g : Ground) : g.claims = g.sourced.filterMap fun p => g.claimOf? p.1 p.2 := by
  simp [claims, sourced, List.filterMap_flatMap, List.filterMap_map]

end Ground

namespace Census

theorem take_eq (g : Ground) (policy : Renaming) :
    take g policy = g.sourced.foldl (fun c p => readEntry g p.1 c p.2) { policy } := by
  rw [take, Ground.sourced, List.foldl_flatMap]
  congr 1
  funext c d
  rw [readClass, List.foldl_map]

/-- What one entry preserves, the whole census has. -/
theorem take_induction {motive : List (String × NestingEntry) → Census → Prop} (g : Ground)
    (policy : Renaming) (start : motive [] { policy })
    (step : ∀ ps p c, motive ps c → motive (ps ++ [p]) (readEntry g p.1 c p.2)) :
    motive g.sourced (take g policy) := by
  rw [take_eq]
  induction g.sourced using List.reverseRecOn with
  | nil => exact start
  | append_singleton ps p ih =>
    rw [List.foldl_append]
    exact step ps p _ ih

section Choices

theorem lookup_cons_update (names : List (String × String)) (inner name i : String) :
    ((inner, name) :: names).lookup i =
      Function.update (fun i => names.lookup i) inner (some name) i := by
  by_cases hi : i = inner
  · rw [hi, Function.update_self, List.lookup_cons_self]
  · rw [Function.update_of_ne hi, List.lookup_cons, beq_false_of_ne hi]

/-- The names chosen and the policy left when classes were first named in some order. -/
inductive NamesChosen (policy : Renaming) :
    (String → Option String) → List (String × String) → Renaming → Prop
  | start : NamesChosen policy (fun _ => none) [] policy
  | choose {first : String → Option String} {names : List (String × String)} {r : Renaming}
    (inner simple : String) (before : NamesChosen policy first names r)
    (fresh : first inner = none) :
    NamesChosen policy (Function.update first inner (some simple))
      ((inner, (r.rename inner simple).1) :: names) (r.rename inner simple).2

variable {policy : Renaming}

theorem NamesChosen.isSome_lookup {first : String → Option String}
    {names : List (String × String)} {r : Renaming} (h : NamesChosen policy first names r)
    (i : String) : (names.lookup i).isSome = (first i).isSome := by
  induction h with
  | start => rfl
  | choose inner simple _ _ ih =>
    rw [lookup_cons_update]
    by_cases hi : i = inner
    · rw [hi, Function.update_self, Function.update_self]
      rfl
    · rw [Function.update_of_ne hi, Function.update_of_ne hi]
      exact ih

theorem names_readEntry (g : Ground) (source : String) (c : Census) (e : NestingEntry) :
    let c' := match e.simpleName with
      | none => c
      | some simple => (c.chooseName e.inner simple).2
    (readEntry g source c e).names = c'.names ∧ (readEntry g source c e).policy = c'.policy := by
  cases hs : e.simpleName with
  | none =>
    simp only [readEntry, hs]
    split <;> exact ⟨rfl, rfl⟩
  | some simple =>
    simp only [readEntry, hs]
    split <;> exact ⟨rfl, rfl⟩

theorem NamesChosen.readEntry {c : Census} {es : List NestingEntry}
    (h : NamesChosen policy (firstName? es) c.names c.policy) (g : Ground) (source : String)
    (e : NestingEntry) : NamesChosen policy (firstName? (es ++ [e]))
      (readEntry g source c e).names (readEntry g source c e).policy := by
  have hsame : e.simpleName = none ∨ (firstName? es e.inner).isSome = true →
      firstName? (es ++ [e]) = firstName? es := by
    intro hcase
    funext i
    rw [firstName?_concat]
    by_cases hi : e.inner = i
    · rcases hcase with hs | hsome
      · rw [hs, ite_self, Option.or_none]
      · obtain ⟨name, hname⟩ := Option.isSome_iff_exists.mp hsome
        rw [← hi, hname, Option.some_or]
    · rw [if_neg hi, Option.or_none]
  obtain ⟨hnames, hpolicy⟩ := names_readEntry g source c e
  rw [hnames, hpolicy]
  cases hs : e.simpleName with
  | none =>
    rw [hsame (.inl hs)]
    exact h
  | some simple =>
    have hlookup := h.isSome_lookup e.inner
    cases hl : c.names.lookup e.inner with
    | some name =>
      rw [hl, Option.isSome_some] at hlookup
      rw [hsame (.inr hlookup.symm)]
      simp only [chooseName, hl]
      exact h
    | none =>
      rw [hl, Option.isSome_none, eq_comm, Option.isSome_eq_false_iff, Option.isNone_iff_eq_none]
        at hlookup
      have hfirst : firstName? (es ++ [e]) =
          Function.update (firstName? es) e.inner (some simple) := by
        funext i
        rw [firstName?_concat, hs]
        by_cases hi : i = e.inner
        · rw [hi, hlookup, if_pos rfl, Option.none_or, Function.update_self]
        · rw [if_neg (Ne.symm hi), Option.or_none, Function.update_of_ne hi]
      simp only [chooseName, hl]
      rw [hfirst]
      exact h.choose e.inner simple hlookup

theorem namesChosen_take (g : Ground) (policy : Renaming) :
    NamesChosen policy (firstName? g.entries) (take g policy).names (take g policy).policy := by
  rw [g.entries_eq]
  refine take_induction (motive := fun ps c =>
    NamesChosen policy (firstName? (ps.map (·.2))) c.names c.policy) g policy .start ?_
  intro ps p c h
  rw [List.map_append]
  exact h.readEntry g p.1 p.2

end Choices

section Claims

/-- The table holds the claims `cs` under the names that were chosen. -/
def Records (c : Census) (cs : List Claim) : Prop :=
  ∀ nameOf : String → String, (∀ inner name, c.names.lookup inner = some name → nameOf inner = name) →
    c.table = ClaimTable.ofClaims (cs.map (.named nameOf))

theorem lookup_chooseName (c : Census) (inner simple : String) :
    (c.chooseName inner simple).2.names.lookup inner = some (c.chooseName inner simple).1 := by
  cases hl : c.names.lookup inner with
  | some name => simp only [chooseName, hl]
  | none =>
    simp only [chooseName, hl]
    exact List.lookup_cons_self

theorem lookup_chooseName_of_some {c : Census} {i name : String} (h : c.names.lookup i = some name)
    (inner simple : String) : (c.chooseName inner simple).2.names.lookup i = some name := by
  cases hl : c.names.lookup inner with
  | some _ =>
    simp only [chooseName, hl]
    exact h
  | none =>
    have hi : (i == inner) = false := beq_false_of_ne fun he => by
      rw [he, hl] at h
      cases h
    simp only [chooseName, hl]
    rw [List.lookup_cons, hi]
    exact h

theorem Records.concat {c : Census} {cs : List Claim} (h : c.Records cs) (warn : Bool)
    {claim made : Claim} (hmade : ∀ nameOf : String → String,
      (∀ inner name, c.names.lookup inner = some name → nameOf inner = name) →
        claim.named nameOf = made) : (c.add warn made).Records (cs ++ [claim]) := by
  intro nameOf hnames
  rw [List.map_append, List.map_singleton, ClaimTable.ofClaims_concat, hmade nameOf hnames,
    ← h nameOf hnames]
  rfl

theorem Records.readEntry {c : Census} {cs : List Claim} (h : c.Records cs) (g : Ground)
    (source : String) (e : NestingEntry) :
    (readEntry g source c e).Records (cs ++ (g.claimOf? source e).toList) := by
  cases hs : e.simpleName with
  | none =>
    simp only [Census.readEntry, Ground.claimOf?, hs]
    split
    · simpa using h
    · exact h.concat _ fun _ _ => rfl
  | some simple =>
    have hchosen : (c.chooseName e.inner simple).2.Records cs := by
      intro nameOf hnames
      rw [table_chooseName]
      exact h nameOf fun i name hl => hnames i name (lookup_chooseName_of_some hl _ _)
    simp only [Census.readEntry, Ground.claimOf?, hs]
    split
    · simpa using hchosen
    · refine hchosen.concat _ fun nameOf hnames => ?_
      rw [Claim.named, Claim.called, hnames _ _ (lookup_chooseName c e.inner simple)]
      simp only [beq_iff_eq]

/-- The name that was chosen for a class. -/
def nameOf (c : Census) (inner : String) : String := (c.names.lookup inner).getD inner

/-- Every claim that is made is taken in under the name of its class. -/
theorem table_take (g : Ground) (policy : Renaming) : (take g policy).table =
    ClaimTable.ofClaims (g.claims.map (.named (take g policy).nameOf)) := by
  have hall : (take g policy).Records g.claims := by
    rw [g.claims_eq]
    refine take_induction (motive := fun ps c =>
      c.Records (ps.filterMap fun p => g.claimOf? p.1 p.2)) g policy (fun _ _ => rfl) ?_
    intro ps p c h
    have hstep := h.readEntry g p.1 p.2
    rw [List.filterMap_append]
    cases hc : g.claimOf? p.1 p.2 <;> simpa [hc] using hstep
  refine hall _ fun inner name hl => ?_
  rw [nameOf, hl, Option.getD_some]

end Claims

end Census

end ClassSketch
