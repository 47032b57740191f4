import ClassSketch.Proofs.LoadOrder
import ClassSketch.Sketch.Imports
import Mathlib.Data.List.DropRight

/-! Short names in a file. A short name is given away once and never taken back, so what the table
of given names says at the end of a file is what it said at every answer before. -/

namespace ClassSketch

namespace Name

theorem take_simple (cs : List Char) :
    cs.take (cs.length - (afterLast '/' cs).length) =
      (cs.reverse.dropWhile (· != '/')).reverse := by
  have hsplit : (cs.reverse.dropWhile (· != '/')).reverse ++ afterLast '/' cs = cs := by
    rw [afterLast, ← List.reverse_append, List.takeWhile_append_dropWhile, List.reverse_reverse]
  generalize (cs.reverse.dropWhile (· != '/')).reverse = before at hsplit ⊢
  generalize afterLast '/' cs = simple at hsplit ⊢
  rw [← hsplit, List.length_append, Nat.add_sub_cancel, List.take_left]

/-- A class lies in the package of the top-level class that encloses it. -/
theorem package_topLevel (name : String) : package (topLevel name) = package name := by
  have hfree : ∀ c ∈ ((afterLast '/' name.toList).takeWhile (· != '$')).reverse,
      (c != '/') = true := by
    intro c hc
    have hsimple : c ∈ afterLast '/' name.toList :=
      (List.takeWhile_sublist _).mem (List.mem_reverse.mp hc)
    rw [afterLast, List.mem_reverse] at hsimple
    exact List.all_eq_true.mp List.all_takeWhile c hsimple
  rw [topLevel]
  split
  · rfl
  · rw [package, package, String.toList_ofList, take_simple, beforeLast, List.reverse_append,
      List.reverse_reverse, List.dropWhile_append_of_pos hfree, List.dropWhile_idempotent,
      beforeLast]

theorem nestedPath_ne_qualified {name : String} (h : package name ≠ "") :
    nestedPath name ≠ qualified name := by
  intro heq
  have hsplit := congrArg List.length
    (name.toList.reverse.takeWhile_append_dropWhile (p := (· != '/')))
  have hlength := congrArg (fun s : String => s.toList.length) heq
  simp only [nestedPath, qualified, replaceChars, simple, afterLast, String.toList_ofList,
    List.length_map, List.length_reverse] at hlength
  rw [List.length_append, List.length_reverse] at hsplit
  have hnone : name.toList.reverse.dropWhile (· != '/') = [] :=
    List.length_eq_zero_iff.mp (by omega)
  apply h
  rw [package, beforeLast, hnone]
  rfl

end Name

namespace Imports

/-- The class's short name was given to its own top-level class. -/
def Grants (i : Imports) (name : String) : Prop :=
  i.claimed.lookup (Name.simple (Name.topLevel name)) = some (Name.topLevel name)

instance (i : Imports) (name : String) : Decidable (i.Grants name) :=
  inferInstanceAs (Decidable (_ = _))

def spelling (i : Imports) (name : String) : String :=
  if i.Grants name then Name.nestedPath name else Name.qualified name

/-- No short name that was given away is taken back. -/
structure Extends (i j : Imports) : Prop where
  package_eq : j.package = i.package
  home_eq : j.home = i.home
  claimed : ∀ short top, i.claimed.lookup short = some top → j.claimed.lookup short = some top

theorem Extends.refl (i : Imports) : i.Extends i := ⟨rfl, rfl, fun _ _ h => h⟩

theorem Extends.trans {i j k : Imports} (h : i.Extends j) (h' : j.Extends k) : i.Extends k :=
  ⟨h'.package_eq.trans h.package_eq, h'.home_eq.trans h.home_eq,
    fun short top hi => h'.claimed short top (h.claimed short top hi)⟩

theorem Extends.needsImport_eq {i j : Imports} (h : i.Extends j) (name : String) :
    j.needsImport name = i.needsImport name := by
  rw [needsImport, needsImport, h.package_eq, h.home_eq]

/-- What was decided about a name stays decided. -/
theorem Extends.grants_iff {i j : Imports} (h : i.Extends j) {name top : String}
    (hi : i.claimed.lookup (Name.simple (Name.topLevel name)) = some top) :
    j.Grants name ↔ i.Grants name := by
  rw [Grants, Grants, h.claimed _ _ hi, hi]

@[simp] theorem claimed_grant (name : String) (i : Imports) :
    (i.grant name).claimed = i.claimed := by
  rw [grant]
  split <;> rfl

theorem extends_grant (name : String) (i : Imports) : i.Extends (i.grant name) := by
  rw [grant]
  split
  · exact ⟨rfl, rfl, fun _ _ h => h⟩
  · exact .refl i

theorem mem_imported_grant {name d : String} {i : Imports} :
    d ∈ (i.grant name).imported ↔
      (i.needsImport name = true ∧ d = Name.dottedPackage (Name.topLevel name)) ∨
        d ∈ i.imported := by
  rw [grant]
  split
  · next h => simp [ClaimTable.mem_insertSorted, h]
  · next h => simp [h]

theorem sorted_grant (name : String) {i : Imports} (h : i.imported.Pairwise (· < ·)) :
    (i.grant name).imported.Pairwise (· < ·) := by
  rw [grant]
  split
  · exact pairwise_insertSorted _ h
  · exact h

/-- What one question does. Afterwards the class's short name belongs to somebody. -/
structure Answered (name : String) (i : Imports) (answer : String) (j : Imports) : Prop where
  extended : i.Extends j
  decided : ∃ top, j.claimed.lookup (Name.simple (Name.topLevel name)) = some top
  answer_eq : answer = j.spelling name
  mem_imported : ∀ d, d ∈ j.imported ↔
    (j.Grants name ∧ i.needsImport name = true ∧ d = Name.dottedPackage (Name.topLevel name)) ∨
      d ∈ i.imported
  sorted : i.imported.Pairwise (· < ·) → j.imported.Pairwise (· < ·)

theorem answered_shortName (name : String) (i : Imports) :
    Answered name i (shortName name i).1 (shortName name i).2 := by
  cases hl : i.claimed.lookup (Name.simple (Name.topLevel name)) with
  | some holder =>
    by_cases hold : holder = Name.topLevel name
    · subst hold
      have hrun : shortName name i = (Name.nestedPath name, i.grant name) := by
        simp only [shortName, hl, if_true]
      have hgrants : (i.grant name).Grants name := by rw [Grants, claimed_grant, hl]
      rw [hrun]
      dsimp only
      refine ⟨extends_grant name i, ⟨_, hgrants⟩, ?_, fun d => ?_, sorted_grant name⟩
      · rw [spelling, if_pos hgrants]
      · simp only [mem_imported_grant, hgrants, true_and]
    · have hrun : shortName name i = (Name.qualified name, i) := by
        simp only [shortName, hl, hold, if_false]
      have hgrants : ¬ i.Grants name := by
        rw [Grants, hl]
        exact fun h => hold (Option.some.inj h)
      rw [hrun]
      refine ⟨.refl i, ⟨holder, hl⟩, by rw [spelling, if_neg hgrants], fun d => ?_, id⟩
      simp only [hgrants, false_and, false_or]
  | none =>
    let given : Imports :=
      { i with claimed := (Name.simple (Name.topLevel name), Name.topLevel name) :: i.claimed }
    have hrun : shortName name i = (Name.nestedPath name, given.grant name) := by
      simp only [shortName, hl, given]
    have hgrants : (given.grant name).Grants name := by
      rw [Grants, claimed_grant]
      exact List.lookup_cons_self
    have hgiven : i.Extends given := by
      refine ⟨rfl, rfl, fun short top hi => ?_⟩
      have hne : short ≠ Name.simple (Name.topLevel name) := by
        rintro rfl
        rw [hl] at hi
        cases hi
      simp only [given, List.lookup_cons, beq_false_of_ne hne, hi]
    rw [hrun]
    dsimp only
    refine ⟨hgiven.trans (extends_grant name given), ⟨_, hgrants⟩, ?_, fun d => ?_,
      sorted_grant name (i := given)⟩
    · rw [spelling, if_pos hgrants]
    · simp only [mem_imported_grant, hgrants, true_and, hgiven.needsImport_eq, given]

/-- All answers in a file follow from the table at its end. -/
structure AnsweredAll (names : List String) (i : Imports) (answers : List String) (j : Imports) :
    Prop where
  extended : i.Extends j
  answers_eq : answers = names.map j.spelling
  mem_imported : ∀ d, d ∈ j.imported ↔
    (∃ n ∈ names, j.Grants n ∧ i.needsImport n = true ∧
      d = Name.dottedPackage (Name.topLevel n)) ∨ d ∈ i.imported
  sorted : i.imported.Pairwise (· < ·) → j.imported.Pairwise (· < ·)

theorem Answered.cons {n answer : String} {names answers : List String} {i j k : Imports}
    (h : Answered n i answer j) (h' : AnsweredAll names j answers k) :
    AnsweredAll (n :: names) i (answer :: answers) k := by
  obtain ⟨top, htop⟩ := h.decided
  have hgrants : k.Grants n ↔ j.Grants n := h'.extended.grants_iff htop
  refine ⟨h.extended.trans h'.extended, ?_, fun d => ?_, h'.sorted ∘ h.sorted⟩
  · have hfirst : answer = k.spelling n := by
      rw [h.answer_eq, spelling, spelling, if_congr hgrants rfl rfl]
    rw [List.map_cons, hfirst, h'.answers_eq]
  · simp only [h'.mem_imported, h.mem_imported, h.extended.needsImport_eq, List.mem_cons,
      exists_eq_or_imp, hgrants, or_assoc]
    exact or_left_comm

theorem answered_run (names : List String) (i : Imports) :
    AnsweredAll names i (names.mapM shortName i).1 (names.mapM shortName i).2 := by
  induction names generalizing i with
  | nil =>
    have hrun : [].mapM shortName i = ([], i) := rfl
    rw [hrun]
    exact ⟨.refl i, rfl, fun d => by simp, id⟩
  | cons n names ih =>
    have hrun : (n :: names).mapM shortName i =
        ((shortName n i).1 :: (names.mapM shortName (shortName n i).2).1,
          (names.mapM shortName (shortName n i).2).2) := by
      rw [List.mapM_cons]
      rfl
    rw [hrun]
    exact (answered_shortName n i).cons (ih (shortName n i).2)

theorem needsImport_ofRoot (root name : String) : (ofRoot root).needsImport name = true ↔
    Name.package name ∉ ["", "java/lang", Name.package root] := by
  have hhome : Name.topLevel name = Name.topLevel root →
      Name.package name = Name.package root := by
    intro h
    rw [← Name.package_topLevel name, h, Name.package_topLevel]
  have hempty : (Name.package name).isEmpty = true ↔ Name.package name = "" :=
    String.isEmpty_iff
  simp only [needsImport, ofRoot, Bool.and_eq_true, bne_iff_ne, Bool.not_eq_true',
    ← Bool.not_eq_true, hempty, List.mem_cons, List.not_mem_nil, or_false, not_or]
  constructor
  · rintro ⟨⟨⟨hnone, hlang⟩, hown⟩, _⟩
    exact ⟨hnone, hlang, hown⟩
  · rintro ⟨hnone, hlang, hown⟩
    exact ⟨⟨⟨hnone, hlang⟩, hown⟩, fun h => hown (hhome h)⟩

theorem grants_root (root : String) : (ofRoot root).Grants root := List.lookup_cons_self

theorem AnsweredAll.mem_zip {names answers : List String} {i j : Imports}
    (h : AnsweredAll names i answers j) {n answer : String} :
    (n, answer) ∈ names.zip answers ↔ n ∈ names ∧ answer = j.spelling n := by
  have hzip : names.zip (names.map j.spelling) = names.map fun n => (n, j.spelling n) := by
    have hmap := List.zip_map' (f := id) (g := j.spelling) (l := names)
    rwa [List.map_id] at hmap
  rw [h.answers_eq, hzip]
  simp only [List.mem_map, Prod.mk.injEq]
  constructor
  · rintro ⟨m, hm, rfl, rfl⟩
    exact ⟨hm, rfl⟩
  · rintro ⟨hn, rfl⟩
    exact ⟨n, hn, rfl, rfl⟩

/-- In a package, the short form can be told from the full one. -/
theorem AnsweredAll.short_iff {names answers : List String} {i j : Imports}
    (h : AnsweredAll names i answers j) {n : String} (hp : Name.package n ≠ "") :
    (n, Name.nestedPath n) ∈ names.zip answers ↔ n ∈ names ∧ j.Grants n := by
  rw [h.mem_zip, spelling]
  split
  · next hg => simp [hg]
  · next hg => simp [hg, Name.nestedPath_ne_qualified hp]

/-- What a reader of a file can rely on, from the names that were asked for with their answers and
the lines that are imported. -/
structure Unambiguous (root : String) (names answers imported : List String) : Prop where
  answered : answers.length = names.length
  short_or_full : ∀ n answer, (n, answer) ∈ names.zip answers →
    answer = Name.nestedPath n ∨ answer = Name.qualified n
  stable : ∀ n answer again, (n, answer) ∈ names.zip answers → (n, again) ∈ names.zip answers →
    again = answer
  short_ne_full : ∀ n, Name.package n ≠ "" → Name.nestedPath n ≠ Name.qualified n
  one_class : ∀ n m, Name.package n ≠ "" → Name.package m ≠ "" →
    (n, Name.nestedPath n) ∈ names.zip answers → (m, Name.nestedPath m) ∈ names.zip answers →
    Name.simple (Name.topLevel n) = Name.simple (Name.topLevel m) →
    Name.topLevel n = Name.topLevel m
  root_first : ∀ n, Name.package n ≠ "" → (n, Name.nestedPath n) ∈ names.zip answers →
    Name.simple (Name.topLevel n) = Name.simple (Name.topLevel root) →
    Name.topLevel n = Name.topLevel root
  mem_imported : ∀ line, line ∈ imported ↔ ∃ n, (n, Name.nestedPath n) ∈ names.zip answers ∧
    Name.package n ∉ ["", "java/lang", Name.package root] ∧
    line = Name.dottedPackage (Name.topLevel n)
  imported_once : imported.Pairwise (· < ·)
  imported_distinct : ∀ n m, (n, Name.nestedPath n) ∈ names.zip answers →
    (m, Name.nestedPath m) ∈ names.zip answers →
    Name.package n ∉ ["", "java/lang", Name.package root] →
    Name.package m ∉ ["", "java/lang", Name.package root] →
    Name.topLevel n ≠ Name.topLevel m →
    Name.simple (Name.topLevel n) ≠ Name.simple (Name.topLevel m)

/-- For every root class and all names that are asked for, one after the other. -/
theorem short_names_unambiguous (root : String) (names : List String) :
    Unambiguous root names (names.mapM shortName (ofRoot root)).1
      (names.mapM shortName (ofRoot root)).2.imported := by
  have hrun := answered_run names (ofRoot root)
  generalize names.mapM shortName (ofRoot root) = r at hrun ⊢
  have hroot : r.2.Grants root := hrun.extended.claimed _ _ (grants_root root)
  have hone : ∀ n m, Name.package n ≠ "" → Name.package m ≠ "" →
      (n, Name.nestedPath n) ∈ names.zip r.1 → (m, Name.nestedPath m) ∈ names.zip r.1 →
      Name.simple (Name.topLevel n) = Name.simple (Name.topLevel m) →
      Name.topLevel n = Name.topLevel m := by
    intro n m hpn hpm hn hm hsame
    have hgn := ((hrun.short_iff hpn).mp hn).2
    have hgm := ((hrun.short_iff hpm).mp hm).2
    rw [Grants, hsame] at hgn
    exact Option.some.inj (hgn.symm.trans hgm)
  have hpackage : ∀ {n}, Name.package n ∉ ["", "java/lang", Name.package root] →
      Name.package n ≠ "" := fun h he => h (by simp [he])
  refine ⟨by rw [hrun.answers_eq, List.length_map], fun n answer h => ?_,
    fun n answer again h h' => ?_, fun n => Name.nestedPath_ne_qualified, hone,
    fun n hp h hsame => ?_, fun line => ?_, hrun.sorted .nil, fun n m hn hm hfn hfm hne hsame => ?_⟩
  · rw [(hrun.mem_zip.mp h).2, spelling]
    split
    · exact .inl rfl
    · exact .inr rfl
  · rw [(hrun.mem_zip.mp h).2, (hrun.mem_zip.mp h').2]
  · have hg := ((hrun.short_iff hp).mp h).2
    rw [Grants, hsame] at hg
    exact Option.some.inj (hg.symm.trans hroot)
  · have hnone : line ∉ (ofRoot root).imported := List.not_mem_nil
    simp only [hrun.mem_imported, hnone, or_false, needsImport_ofRoot]
    constructor
    · rintro ⟨n, hn, hg, hforeign, rfl⟩
      exact ⟨n, (hrun.short_iff (hpackage hforeign)).mpr ⟨hn, hg⟩, hforeign, rfl⟩
    · rintro ⟨n, hshort, hforeign, rfl⟩
      obtain ⟨hn, hg⟩ := (hrun.short_iff (hpackage hforeign)).mp hshort
      exact ⟨n, hn, hg, hforeign, rfl⟩
  · exact hne (hone n m (hpackage hfn) (hpackage hfm) hn hm hsame)

end Imports

end ClassSketch
