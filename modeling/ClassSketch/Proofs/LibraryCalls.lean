import ClassSketch.Proofs.Ancestors
import ClassSketch.Proofs.Walks

/-! A library under any sequence of calls. What is found under a name is what was inserted under it
last. A signature is read when it is first asked for, and stays as it was read until the name is
released, whatever is inserted meanwhile. -/

namespace ClassSketch

/-- A call to a library. A signature is asked for with the class that a lookup of the name gives. -/
inductive LibraryCall where
  | insert (c : ClassDecl)
  | lookup (name : String)
  | own
  | signature (name : String)
  | release (name : String)

namespace LibraryCall

def apply (l : Library) : LibraryCall → Library
  | insert c => l.insert c
  | lookup _ | own => l
  | signature name =>
    match l.find? name with
    | some c => (Library.signature? c l).2
    | none => l
  | release name => l.release name

/-- The library after some calls, of which the latest comes first. -/
def after : List LibraryCall → Library
  | [] => {}
  | call :: earlier => call.apply (after earlier)

def inserted? : LibraryCall → Option ClassDecl
  | insert c => some c
  | _ => none

def lastInserted? (calls : List LibraryCall) (name : String) : Option ClassDecl :=
  (calls.filterMap inserted?).find? fun c => c.name == name

/-- Names in the order in which they were first inserted. -/
def insertedNames (calls : List LibraryCall) : List String :=
  ((calls.filterMap inserted?).map (·.name)).reverse.eraseDups

/-- The class whose signature is pooled under a name: the one that was there when the signature was
asked for the first time since the name was last released. -/
def pooledClass? (name : String) : List LibraryCall → Option ClassDecl
  | [] => none
  | release n :: earlier => if n = name then none else pooledClass? name earlier
  | signature n :: earlier =>
    if n = name then (pooledClass? name earlier).or (lastInserted? earlier name)
    else pooledClass? name earlier
  | _ :: earlier => pooledClass? name earlier

end LibraryCall

namespace Library

theorem find?_insert (l : Library) (c : ClassDecl) (name : String) :
    (l.insert c).find? name = if c.name = name then some c else l.find? name := by
  rw [find?, find?, insert]
  dsimp only
  generalize l.classes = ds
  induction ds with
  | nil => by_cases hc : c.name = name <;> simp [put, hc]
  | cons d ds ih =>
    by_cases hd : d.name = c.name
    · by_cases hc : c.name = name
      · simp [put, hd, hc]
      · simp [put, hd, hc]
    · by_cases hn : d.name = name
      · have hc : c.name ≠ name := fun hc => hd (hn.trans hc.symm)
        simp [put, hn, hc, Ne.symm hc]
      · simp [put, hd, hn, ih]

theorem names_insert (l : Library) (c : ClassDecl) :
    (l.insert c).classes.map (·.name) =
      if c.name ∈ l.classes.map (·.name) then l.classes.map (·.name)
      else l.classes.map (·.name) ++ [c.name] := by
  rw [insert]
  dsimp only
  generalize l.classes = ds
  induction ds with
  | nil => simp [put]
  | cons d ds ih =>
    by_cases hd : d.name = c.name
    · simp [put, hd]
    · rw [put, if_neg hd, List.map_cons, ih]
      by_cases hmem : c.name ∈ ds.map (·.name)
      · simp [hmem]
      · have hne : c.name ≠ d.name := Ne.symm hd
        simp [hne, hmem]

/-- The classes of a library, from their names and what is found under them. -/
theorem classes_eq_filterMap (l : Library) :
    l.classes = (l.classes.map (·.name)).filterMap l.find? := by
  have hself : ∀ c ∈ l.classes, (l.find? ∘ ClassDecl.name) c = some c := by
    intro c hc
    exact (find?_name_eq_some_iff l.distinct).mpr ⟨hc, rfl⟩
  rw [List.filterMap_map, List.filterMap_congr hself, List.filterMap_some]

/-- A signature that was asked for is pooled, unless there was one already. -/
theorem lookup_pool_signature? {l : Library} (hmode : l.mode = .pooled) (c : ClassDecl)
    (name : String) : (Library.signature? c l).2.pool.lookup name =
      if c.name = name then (l.pool.lookup name).or (some c.readableSignature?)
      else l.pool.lookup name := by
  by_cases hc : c.name = name
  · subst hc
    cases hl : l.pool.lookup c.name with
    | some s => simp [Library.signature?, hmode, hl]
    | none => simp [Library.signature?, hmode, hl]
  · rw [if_neg hc]
    cases hl : l.pool.lookup c.name with
    | some s => simp [Library.signature?, hmode, hl]
    | none =>
      have hname : (name == c.name) = false := beq_false_of_ne (Ne.symm hc)
      simp [Library.signature?, hmode, hl, List.lookup_cons, hname]

end Library

namespace LibraryCall

theorem classes_apply {call : LibraryCall} (h : call.inserted? = none) (l : Library) :
    (call.apply l).classes = l.classes := by
  cases call with
  | insert c => cases h
  | lookup n => rfl
  | own => rfl
  | signature n =>
    rw [apply]
    cases l.find? n with
    | none => rfl
    | some c => exact Library.classes_signature? c l
  | release n => rfl

theorem mode_after (calls : List LibraryCall) : (after calls).mode = .pooled := by
  induction calls with
  | nil => rfl
  | cons call earlier ih =>
    rw [after]
    cases call with
    | signature n =>
      rw [apply]
      cases (after earlier).find? n with
      | none => exact ih
      | some c => exact (Library.mode_signature? c _).trans ih
    | insert c => exact ih
    | lookup n => exact ih
    | own => exact ih
    | release n => exact ih

theorem find?_after (calls : List LibraryCall) (name : String) :
    (after calls).find? name = lastInserted? calls name := by
  induction calls with
  | nil => rfl
  | cons call earlier ih =>
    rw [after, lastInserted?]
    cases hcall : call.inserted? with
    | none =>
      rw [List.filterMap_cons_none hcall, Library.find?_congr (classes_apply hcall _), ih]
      rfl
    | some c =>
      obtain rfl : call = .insert c := by
        cases call <;> cases hcall
        rfl
      rw [List.filterMap_cons_some hcall, apply, Library.find?_insert, ih, List.find?_cons]
      by_cases hc : c.name = name
      · simp [hc]
      · rw [if_neg hc, beq_false_of_ne hc]
        rfl

theorem names_after (calls : List LibraryCall) :
    (after calls).classes.map (·.name) = insertedNames calls := by
  induction calls with
  | nil => rfl
  | cons call earlier ih =>
    rw [after, insertedNames]
    cases hcall : call.inserted? with
    | none =>
      rw [List.filterMap_cons_none hcall, classes_apply hcall, ih]
      rfl
    | some c =>
      obtain rfl : call = .insert c := by
        cases call <;> cases hcall
        rfl
      have hmem : c.name ∈ insertedNames earlier ↔
          c.name ∈ ((earlier.filterMap inserted?).map (·.name)).reverse := List.mem_eraseDups
      rw [List.filterMap_cons_some hcall, apply, Library.names_insert, ih, List.map_cons,
        List.reverse_cons, List.eraseDups_append]
      by_cases hc : c.name ∈ insertedNames earlier
      · rw [if_pos hc]
        simp [List.removeAll, hmem.mp hc, insertedNames]
      · rw [if_neg hc]
        simp [List.removeAll, mt hmem.mpr hc, insertedNames, List.eraseDups_cons]

theorem lookup_pool_after (calls : List LibraryCall) (name : String) :
    (after calls).pool.lookup name =
      (pooledClass? name calls).map ClassDecl.readableSignature? := by
  induction calls with
  | nil => rfl
  | cons call earlier ih =>
    rw [after]
    cases call with
    | insert c => exact ih
    | lookup n => exact ih
    | own => exact ih
    | release n =>
      have hfilter := Table.find?_filter_ne (after earlier).pool n name
      rw [Table.find?, Table.find?] at hfilter
      rw [apply, Library.release, hfilter, pooledClass?, ih]
      by_cases hn : name = n
      · simp [hn]
      · rw [if_neg hn, if_neg (Ne.symm hn)]
    | signature n =>
      rw [apply, pooledClass?, ← find?_after earlier]
      cases hfound : (after earlier).find? n with
      | none =>
        by_cases hn : n = name
        · subst hn
          rw [if_pos rfl, hfound, Option.or_none]
          exact ih
        · rw [if_neg hn]
          exact ih
      | some c =>
        have hc : c.name = n := ((find?_name_eq_some_iff (after earlier).distinct).mp hfound).2
        dsimp only
        rw [Library.lookup_pool_signature? (mode_after earlier), hc, ih]
        by_cases hn : n = name
        · subst hn
          rw [if_pos rfl, if_pos rfl, hfound]
          cases pooledClass? n earlier <;> rfl
        · rw [if_neg hn, if_neg hn]

/-- After any calls, what is found under a name was inserted under it last, the own classes stand in
the order in which their names first came, and the signature of a class is the one that was read
when it was first asked for since the last release. So it is that of the class itself if and only if
both read alike. -/
theorem answers_follow_history (calls : List LibraryCall) :
    (∀ name, (after calls).find? name = lastInserted? calls name) ∧
      (after calls).ownClasses =
        ((insertedNames calls).filterMap (lastInserted? calls)).filter (·.own) ∧
      ∀ name c, (after calls).find? name = some c →
        (Library.signature? c (after calls)).1 =
          ((pooledClass? name calls).getD c).readableSignature? ∧
        ((Library.signature? c (after calls)).1 = c.readableSignature? ↔
          ∀ d, pooledClass? name calls = some d →
            d.readableSignature? = c.readableSignature?) := by
  refine ⟨find?_after calls, ?_, fun name c hfound => ?_⟩
  · have hfind : (after calls).find? = lastInserted? calls := funext (find?_after calls)
    rw [Library.ownClasses, Library.classes_eq_filterMap, names_after, hfind]
  · obtain ⟨_, rfl⟩ := (find?_name_eq_some_iff (after calls).distinct).mp hfound
    have hserved : (Library.signature? c (after calls)).1 =
        ((pooledClass? c.name calls).getD c).readableSignature? := by
      rw [Library.signature?_fst, Library.served, mode_after]
      dsimp only
      rw [lookup_pool_after]
      cases pooledClass? c.name calls <;> rfl
    refine ⟨hserved, ?_⟩
    rw [hserved]
    cases pooledClass? c.name calls with
    | none => simp
    | some d => simp

def box (signature : String) : ClassDecl :=
  { name := "a/Box", access := .publicFlag, signature := some signature }

/-- A box is read, replaced and released. -/
def boxCalls : List LibraryCall :=
  [.release "a/Box", .insert (box "<U:Ljava/lang/Object;>Ljava/lang/Object;"), .signature "a/Box",
    .insert (box "<T:Ljava/lang/Object;>Ljava/lang/Object;")]

theorem answers_follow_history_boxCalls :
    (after boxCalls).find? "a/Box" = some (box "<U:Ljava/lang/Object;>Ljava/lang/Object;") ∧
      (Library.signature? (box "<U:Ljava/lang/Object;>Ljava/lang/Object;") (after boxCalls)).1 =
        (box "<U:Ljava/lang/Object;>Ljava/lang/Object;").readableSignature? := by
  have hfound : (after boxCalls).find? "a/Box" =
      some (box "<U:Ljava/lang/Object;>Ljava/lang/Object;") := by
    rw [find?_after]
    rfl
  have hreleased : pooledClass? "a/Box" boxCalls = none := rfl
  refine ⟨hfound, ((answers_follow_history boxCalls).2.2 "a/Box" _ hfound).2.mpr fun d hd => ?_⟩
  rw [hreleased] at hd
  cases hd

/-- Without the release, the box has the signature of the one that it replaced. -/
theorem replaced_class_keeps_signature : ¬ ∀ (calls : List LibraryCall) (name : String)
    (c : ClassDecl), (after calls).find? name = some c →
      (Library.signature? c (after calls)).1 = c.readableSignature? := by
  intro hall
  have hsame := hall boxCalls.tail "a/Box" (box "<U:Ljava/lang/Object;>Ljava/lang/Object;")
    (by rw [find?_after]; rfl)
  have hnames := congrArg (Option.map ClassSignature.paramNames) hsame
  revert hnames
  decide +kernel

end LibraryCall

end ClassSketch
