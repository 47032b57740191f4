import ClassSketch.Proofs.ShortNames
import ClassSketch.Proofs.Slices

/-! Where the spelling of a class starts. The table of short names and the import lines go by the
top-level class, and a dollar that leads its name belongs to the name. The path that is printed has
a dot for every dollar, for that one too. -/

namespace ClassSketch

namespace Name

def LeadingDollar (name : String) : Prop := (simple name).toList.head? = some '$'

instance (name : String) : Decidable (LeadingDollar name) := inferInstanceAs (Decidable (_ = _))

/-- The simple name of the top-level class, with nothing after it or with a dot and the path of what
is nested in that class. -/
inductive FromTop (name : String) : String → Prop where
  | alone : simple name = simple (topLevel name) → FromTop name (simple (topLevel name))
  | inside (inner : String) : simple name = simple (topLevel name) ++ "$" ++ inner →
      FromTop name (simple (topLevel name) ++ "." ++ replaceChars (· == '$') '.' inner)

theorem toList_simple (name : String) : (simple name).toList = afterLast '/' name.toList := by
  rw [simple, String.toList_ofList]

theorem not_mem_simple (name : String) : '/' ∉ (simple name).toList := by
  intro h
  rw [toList_simple, afterLast, List.mem_reverse] at h
  have hother := List.all_eq_true.mp List.all_takeWhile _ h
  simp at hother

/-- What follows the last slash is not cut further. -/
theorem afterLast_dropWhile_append {cs top : List Char} (h : '/' ∉ top) :
    afterLast '/' ((cs.reverse.dropWhile (· != '/')).reverse ++ top) = top := by
  have htop : ∀ c ∈ top.reverse, (c != '/') = true :=
    forall_bne fun hmem => h (List.mem_reverse.mp hmem)
  have hstop : (cs.reverse.dropWhile (· != '/')).takeWhile (· != '/') = [] := by
    have hdivided := (cs.reverse.dropWhile (· != '/')).takeWhile_append_dropWhile (p := (· != '/'))
    rwa [List.dropWhile_idempotent, List.append_left_eq_self] at hdivided
  rw [afterLast, List.reverse_append, List.reverse_reverse, List.takeWhile_append_of_pos htop,
    hstop, List.append_nil, List.reverse_reverse]

theorem topLevel_of_leadingDollar {name : String} (h : LeadingDollar name) :
    topLevel name = name := by
  rw [LeadingDollar, toList_simple] at h
  obtain ⟨rest, hrest⟩ := List.head?_eq_some_iff.mp h
  rw [topLevel, hrest]
  rfl

/-- Without a dollar in front, the top-level class is named up to the first dollar. -/
theorem toList_simple_topLevel {name : String} (h : ¬ LeadingDollar name) :
    (simple (topLevel name)).toList = (simple name).toList.takeWhile (· != '$') := by
  have hfree : '/' ∉ (simple name).toList.takeWhile (· != '$') :=
    fun hmem => not_mem_simple name ((List.takeWhile_sublist _).mem hmem)
  rw [LeadingDollar] at h
  rw [toList_simple] at h hfree ⊢
  rw [topLevel, toList_simple]
  split
  · next hnone =>
    -- Only an empty simple name has nothing before its first dollar.
    rw [hnone]
    cases hcs : afterLast '/' name.toList with
    | nil => rfl
    | cons c cs =>
      rw [hcs, List.head?_cons, Option.some.injEq] at h
      rw [hcs, List.takeWhile_cons, if_pos (bne_iff_ne.mpr h)] at hnone
      cases hnone
  · rw [String.toList_ofList, take_simple, afterLast_dropWhile_append hfree]

theorem toList_replaceChars (p : Char → Bool) (by_ : Char) (s : String) :
    (replaceChars p by_ s).toList = s.toList.map fun c => if p c then by_ else c := by
  rw [replaceChars, String.toList_ofList]

theorem map_undivided {cs : List Char} :
    (cs.takeWhile (· != '$')).map (fun c => if c == '$' then '.' else c) =
      cs.takeWhile (· != '$') := by
  have hsame : ∀ c ∈ cs.takeWhile (· != '$'), (if c == '$' then '.' else c) = c := by
    intro c hc
    have hother := List.all_eq_true.mp List.all_takeWhile c hc
    rw [bne_iff_ne] at hother
    rw [if_neg (fun h => hother (eq_of_beq h))]
  rw [List.map_congr_left hsame, List.map_id']

theorem fromTop_nestedPath {name : String} (h : ¬ LeadingDollar name) :
    FromTop name (nestedPath name) := by
  have htop := toList_simple_topLevel h
  have hsplit := (simple name).toList.takeWhile_append_dropWhile (p := (· != '$'))
  have hpath : (nestedPath name).toList = (simple (topLevel name)).toList ++
      ((simple name).toList.dropWhile (· != '$')).map fun c => if c == '$' then '.' else c := by
    rw [nestedPath, toList_replaceChars, htop]
    nth_rewrite 1 [← hsplit]
    rw [List.map_append, map_undivided]
  rw [← htop] at hsplit
  have hfirst := List.head?_dropWhile_not (· != '$') (simple name).toList
  cases hrest : (simple name).toList.dropWhile (· != '$') with
  | nil =>
    rw [hrest, List.map_nil, List.append_nil, String.toList_inj] at hpath
    rw [hrest, List.append_nil, String.toList_inj] at hsplit
    rw [hpath]
    exact .alone hsplit.symm
  | cons c inner =>
    rw [hrest, List.head?_cons] at hfirst
    obtain rfl : c = '$' := by simpa using hfirst
    have hname : simple name = simple (topLevel name) ++ "$" ++ String.ofList inner := by
      rw [← String.toList_inj, ← hsplit, hrest]
      simp
    have hanswer : nestedPath name = simple (topLevel name) ++ "." ++
        replaceChars (· == '$') '.' (String.ofList inner) := by
      rw [← String.toList_inj, hpath, hrest]
      simp [toList_replaceChars]
    rw [hanswer]
    exact .inside _ hname

theorem head?_fromTop {name answer : String} (h : FromTop name answer) (hd : LeadingDollar name) :
    answer.toList.head? = some '$' := by
  rw [LeadingDollar] at hd
  cases h with
  | alone => rwa [topLevel_of_leadingDollar hd]
  | inside inner =>
    rw [topLevel_of_leadingDollar hd, String.toList_append, String.toList_append, List.append_assoc,
      List.head?_append, hd]
    rfl

/-- The dollar in front becomes a dot, with which no name starts. -/
theorem not_fromTop_nestedPath {name : String} (h : LeadingDollar name) :
    ¬ FromTop name (nestedPath name) := by
  intro hfrom
  have hfirst := head?_fromTop hfrom h
  rw [LeadingDollar] at h
  rw [nestedPath, toList_replaceChars, List.head?_map, h, Option.map_some] at hfirst
  exact absurd (Option.some.inj hfirst) (by decide)

theorem simple_of_undivided {name : String} (h : '/' ∉ name.toList) : simple name = name := by
  rw [← String.toList_inj, toList_simple, afterLast_of_not_mem h]

/-- Outside packages the short form is the full one. -/
theorem nestedPath_eq_qualified_iff (name : String) :
    nestedPath name = qualified name ↔ '/' ∉ name.toList := by
  constructor
  · intro heq hslash
    have hlength := congrArg (fun s : String => s.toList.length) heq
    simp only [nestedPath, qualified, toList_replaceChars, List.length_map] at hlength
    have hsuffix : (simple name).toList <:+ name.toList := by
      rw [toList_simple, afterLast, ← List.reverse_reverse name.toList, List.reverse_suffix,
        List.reverse_reverse]
      exact List.takeWhile_prefix _
    rw [← hsuffix.eq_of_length hlength] at hslash
    exact not_mem_simple name hslash
  · intro h
    have hsame : ∀ c ∈ name.toList, (if c == '$' then '.' else c) =
        if (c == '/' || c == '$') then '.' else c := by
      intro c hc
      have hother : (c == '/') = false := by
        rw [beq_eq_false_iff_ne]
        rintro rfl
        exact h hc
      rw [hother, Bool.false_or]
    rw [← String.toList_inj, nestedPath, simple_of_undivided h, qualified, toList_replaceChars,
      toList_replaceChars, List.map_congr_left hsame]

end Name

namespace Imports

/-- In a file of the root class, the name gets the answer when the names are asked for in turn. -/
def Calls (root : String) (names : List String) (name answer : String) : Prop :=
  (name, answer) ∈ names.zip (names.mapM shortName (ofRoot root)).1

theorem short_or_full {root : String} {names : List String} {name answer : String}
    (h : Calls root names name answer) :
    answer = Name.nestedPath name ∨ answer = Name.qualified name := by
  rw [((answered_run names (ofRoot root)).mem_zip.mp h).2, spelling]
  split
  · exact .inl rfl
  · exact .inr rfl

/-- A class has its short name from the start in a file of its own. -/
theorem calls_self (name : String) : Calls name [name] name (Name.nestedPath name) := by
  have hrun := answered_run [name] (ofRoot name)
  have hgrants : (([name].mapM shortName) (ofRoot name)).2.Grants name :=
    hrun.extended.claimed _ _ (grants_root name)
  rw [Calls, hrun.mem_zip, spelling, if_pos hgrants]
  exact ⟨List.mem_singleton_self name, rfl⟩

theorem fromTop_iff_of_calls {root : String} {names : List String} {name answer : String}
    (h : Calls root names name answer) :
    (answer = Name.qualified name ∨ Name.FromTop name answer) ↔
      answer = Name.qualified name ∨ ¬ Name.LeadingDollar name := by
  obtain rfl | rfl := short_or_full h
  · by_cases hd : Name.LeadingDollar name
    · simp only [Name.not_fromTop_nestedPath hd, hd, not_true_eq_false]
    · simp only [Name.fromTop_nestedPath hd, hd, not_false_eq_true]
  · simp only [true_or]

/-- For every root class and all names that are asked for, one after the other: an answer is the
full form or starts with the top-level class, unless it is short and the name begins with a dollar.
So the names that are not always spelled like that are those of packages that begin with a
dollar. -/
theorem spelled_from_top_iff (name : String) :
    (∀ root names answer, Calls root names name answer →
      ((answer = Name.qualified name ∨ Name.FromTop name answer) ↔
        answer = Name.qualified name ∨ ¬ Name.LeadingDollar name)) ∧
    ((∀ root names answer, Calls root names name answer →
      answer = Name.qualified name ∨ Name.FromTop name answer) ↔
        ¬ (Name.LeadingDollar name ∧ '/' ∈ name.toList)) := by
  refine ⟨fun _ _ _ => fromTop_iff_of_calls, fun h => ?_, fun h root names answer hcalls => ?_⟩
  · rintro ⟨hd, hslash⟩
    obtain hfull | hfrom := h name [name] _ (calls_self name)
    · exact (Name.nestedPath_eq_qualified_iff name).mp hfull hslash
    · exact Name.not_fromTop_nestedPath hd hfrom
  · rw [fromTop_iff_of_calls hcalls]
    by_cases hd : Name.LeadingDollar name
    · have hundivided : '/' ∉ name.toList := fun hslash => h ⟨hd, hslash⟩
      obtain rfl | rfl := short_or_full hcalls
      · exact .inl ((Name.nestedPath_eq_qualified_iff name).mpr hundivided)
      · exact .inl rfl
    · exact .inr hd

/-- A proxy class is imported under its name and then written without the dollar. -/
theorem proxy_spelled_with_dot :
    (shortName "b/$Proxy1" (ofRoot "a/Main")).1 = ".Proxy1" ∧
      (shortName "b/$Proxy1" (ofRoot "a/Main")).2.imported = ["b.$Proxy1"] ∧
      ¬ (".Proxy1" = Name.qualified "b/$Proxy1" ∨ Name.FromTop "b/$Proxy1" ".Proxy1") := by
  have hshort : Name.nestedPath "b/$Proxy1" = ".Proxy1" := by decide +kernel
  have hdollar : Name.LeadingDollar "b/$Proxy1" := by decide +kernel
  have hnone := Name.not_fromTop_nestedPath hdollar
  rw [hshort] at hnone
  exact ⟨by decide +kernel, by decide +kernel, not_or.mpr ⟨by decide +kernel, hnone⟩⟩

end Imports

end ClassSketch
