import ClassSketch.Proofs.Grammar

/-! Reading descriptors. A reader takes the text of a derivation off the front of its input and
leaves the rest, and it takes nothing else. Each of its steps is paid for by the characters that it
takes, so the number of steps it is given suffices. -/

namespace ClassSketch.Signature

open Grammar

section Words

variable {stops : List Char} {p : Char → Bool}

theorem isHeadChar_iff (c : Char) : isHeadChar c = true ↔ c ∉ ['<', '.', ';'] := by
  simp [isHeadChar, not_or, and_assoc]

theorem isIdentChar_iff (c : Char) :
    isIdentChar c = true ↔ c ∉ ['.', ';', '[', '/', '<', '>', ':'] := by
  simp [isIdentChar, not_or, and_assoc]

theorem readRun_word (hp : ∀ c, p c = true ↔ c ∉ stops) (w : Word stops) {c : Char}
    (hc : c ∈ stops) (r : List Char) :
    readRun p (w.chars ++ c :: r) = some (w.chars, c :: r) := by
  have hfree : ∀ d ∈ w.chars, p d = true := fun d hd => (hp d).mpr (w.free d hd)
  have hstop : ¬ p c = true := fun h => (hp c).mp h hc
  have htake : (w.chars ++ c :: r).takeWhile p = w.chars := by
    rw [List.takeWhile_append_of_pos hfree, List.takeWhile_cons_of_neg hstop, List.append_nil]
  have hdrop : (w.chars ++ c :: r).dropWhile p = c :: r := by
    rw [List.dropWhile_append_of_pos hfree, List.dropWhile_cons_of_neg hstop]
  rw [readRun, htake, hdrop]
  cases hw : w.chars with
  | nil => exact absurd hw w.nonempty
  | cons d ds => rfl

theorem word_of_readRun (hp : ∀ c, p c = true ↔ c ∉ stops) {cs run rest : List Char}
    (h : readRun p cs = some (run, rest)) :
    ∃ w : Word stops, w.chars = run ∧ cs = w.chars ++ rest := by
  have hsplit := cs.takeWhile_append_dropWhile (p := p)
  rw [readRun] at h
  split at h
  · cases h
  · next hne =>
    simp only [Option.some.injEq, Prod.mk.injEq] at h
    obtain ⟨rfl, rfl⟩ := h
    refine ⟨⟨_, fun he => hne he, fun c hc => (hp c).mp ?_⟩, rfl, hsplit.symm⟩
    exact List.all_eq_true.mp List.all_takeWhile c hc

end Words

/-- What is read from a name of a class type on. -/
def readFromName (fuel : Nat) (p : Char → Bool) (join : List Char → String) (cs : List Char) :
    Read JType :=
  match readRun p cs with
  | some (name, '<' :: rest) =>
    match readArgs fuel rest with
    | some (args, rest) => readSegments fuel (join name) args rest
    | none => none
  | some (name, rest) => readSegments fuel (join name) [] rest
  | none => none

theorem readReference_class (fuel : Nat) (cs : List Char) :
    readReference (fuel + 1) ('L' :: cs) = readFromName fuel isHeadChar String.ofList cs := by
  rw [readReference]
  rfl

theorem readSegments_dot (fuel : Nat) (name : String) (args : List TypeArg) (cs : List Char) :
    readSegments (fuel + 1) name args ('.' :: cs) =
      readFromName fuel isIdentChar (fun inner => name ++ "$" ++ String.ofList inner) cs := by
  rw [readSegments]
  rfl

/-- The value of a class type, from its first name and arguments and its inner names. -/
def classValue (name : String) (args : List TypeArg) (inner : List SegmentTree) : JType :=
  .named ("$".intercalate (name :: inner.map fun s => s.name.text))
    ((args :: innerArgs inner).getLast (List.cons_ne_nil _ _)) 0

theorem classValue_segment (name : String) (args : List TypeArg) (ident : Ident)
    (more : List ArgTree) (inner : List SegmentTree) :
    classValue name args (.segment ident more :: inner) =
      classValue (name ++ "$" ++ ident.text) (argValues more) inner := by
  have hnames : "$".intercalate (name :: ident.text :: inner.map fun s => s.name.text) =
      "$".intercalate ((name ++ "$" ++ ident.text) :: inner.map fun s => s.name.text) := by
    rw [String.intercalate_cons_cons, String.intercalate_cons_append]
  rw [classValue, classValue, List.map_cons, SegmentTree.name, hnames]
  congr 1

section Complete

theorem readFromName_chars {stops : List Char} {p : Char → Bool}
    (hp : ∀ c, p c = true ↔ c ∉ stops) (hstops : ∀ c, c = '<' ∨ c = '.' ∨ c = ';' → c ∈ stops)
    (join : List Char → String) (w : Word stops) {args : List ArgTree} {inner : List SegmentTree}
    {fuel : Nat} {r : List Char}
    (hargs : args ≠ [] → ∀ r, readArgs fuel (argChars args ++ '>' :: r) = some (argValues args, r))
    (hinner : ∀ name values, readSegments fuel name values (innerChars inner ++ ';' :: r) =
      some (classValue name values inner, r)) :
    readFromName fuel p join (w.chars ++ (argsPart args ++ (innerChars inner ++ ';' :: r))) =
      some (classValue (join w.chars) (argValues args) inner, r) := by
  cases args with
  | cons a as =>
    have hread := readRun_word hp w (hstops '<' (by simp))
      (argChars (a :: as) ++ '>' :: (innerChars inner ++ ';' :: r))
    have htext : argsPart (a :: as) ++ (innerChars inner ++ ';' :: r) =
        '<' :: (argChars (a :: as) ++ '>' :: (innerChars inner ++ ';' :: r)) := by
      simp [argsPart, argChars]
    rw [htext, readFromName, hread]
    simp only [hargs (List.cons_ne_nil _ _), hinner]
  | nil =>
    obtain ⟨c, cs, hcs, hc⟩ := after_name [] inner r
    have hread := readRun_word hp w (hstops c hc) cs
    have hne : c ≠ '<' := by
      rintro rfl
      cases inner with
      | nil => simp [argsPart, innerChars] at hcs
      | cons s ss =>
        obtain ⟨ident, more⟩ := s
        simp [argsPart, innerChars] at hcs
    have hrest := hinner (join w.chars) (argValues [])
    rw [argsPart, List.nil_append] at hcs
    rw [hcs] at hrest
    rw [argsPart, List.nil_append, hcs, readFromName, hread]
    split
    · next he => simp_all
    · next name rest _ he =>
      obtain ⟨rfl, rfl⟩ := Prod.mk.inj (Option.some.inj he)
      exact hrest
    · next he => cases he

theorem length_named (head : Head) (args : List ArgTree) (inner : List SegmentTree) :
    (RefTree.named head args inner).chars.length =
      head.chars.length + (argsPart args).length + (innerChars inner).length + 2 := by
  simp only [RefTree.chars, List.length_cons, List.length_append, List.length_nil]
  omega

theorem length_segment (name : Ident) (args : List ArgTree) (inner : List SegmentTree) :
    (innerChars (.segment name args :: inner)).length =
      name.chars.length + (argsPart args).length + (innerChars inner).length + 1 := by
  simp only [innerChars, List.length_cons, List.length_append]
  omega

theorem length_argsPart {args : List ArgTree} (h : args ≠ []) :
    (argsPart args).length = (argChars args).length + 2 := by
  cases args with
  | nil => exact absurd rfl h
  | cons a as =>
    simp only [argsPart, argChars, List.length_cons, List.length_append, List.length_nil]
    omega

theorem length_arg_pos (a : ArgTree) : 0 < a.chars.length := by
  cases a with
  | exact u =>
    obtain ⟨c, cs, hu, _⟩ := u.first
    simp [ArgTree.chars, hu]
  | any => simp [ArgTree.chars]
  | upper u => simp [ArgTree.chars]
  | lower u => simp [ArgTree.chars]

/-- A reference type is an argument by itself. -/
theorem readArg_reference (u : RefTree) (r : List Char) {fuel : Nat} :
    readArg (fuel + 1) (u.chars ++ r) =
      (readReference fuel (u.chars ++ r)).map fun (t, rest) => (.exact t, rest) := by
  obtain ⟨c, cs, hu, hc⟩ := u.first
  rw [hu, List.cons_append]
  rcases hc with rfl | rfl | rfl <;> rfl

-- A reader hands its text on at most twice before a character is taken, so three steps for each
-- character are enough. The summand says how far a reader is from its next character.
mutual

theorem readType_chars : ∀ (t : TypeTree) (r : List Char) {fuel : Nat},
    3 * t.chars.length + 2 ≤ fuel → readType fuel (t.chars ++ r) = some (t.value, r)
  | t, r, 0, h => by omega
  | .base p hp, r, fuel + 1, _ => by
    cases p with
    | void => exact absurd rfl hp
    | _ => rfl
  | .ref u, r, fuel + 1, h => by
    rw [TypeTree.chars] at h ⊢
    have hu : readReference fuel (u.chars ++ r) = _ := readReference_chars u r (by omega)
    obtain ⟨c, cs, hcs, hc⟩ := u.first
    have hletter : Primitive.ofLetter? c = none := by
      rcases hc with rfl | rfl | rfl <;> rfl
    rw [hcs, List.cons_append] at hu ⊢
    simp only [readType, hletter, TypeTree.value, hu]

theorem readReference_chars : ∀ (u : RefTree) (r : List Char) {fuel : Nat},
    3 * u.chars.length + 1 ≤ fuel → readReference fuel (u.chars ++ r) = some (u.value, r)
  | u, r, 0, h => by omega
  | .named head args inner, r, fuel + 1, h => by
    have hlength := length_named head args inner
    have htext : (RefTree.named head args inner).chars ++ r =
        'L' :: (head.chars ++ (argsPart args ++ (innerChars inner ++ ';' :: r))) := by
      simp [RefTree.chars]
    rw [htext, readReference_class]
    refine readFromName_chars isHeadChar_iff (by simp) String.ofList head
      (fun hne r => readArgs_chars args r hne (by have := length_argsPart hne; omega))
      (fun name values => readSegments_chars inner r name values (by omega))
  | .var name, r, fuel + 1, _ => by
    have hread := readRun_word isIdentChar_iff name (c := ';') (by simp) r
    have htext : (RefTree.var name).chars ++ r = 'T' :: (name.chars ++ ';' :: r) := by
      simp [RefTree.chars]
    rw [htext, readReference, readVariable, hread]
    rfl
  | .array t, r, fuel + 1, h => by
    rw [RefTree.chars, List.length_cons] at h
    have ht : readType fuel (t.chars ++ r) = _ := readType_chars t r (by omega)
    rw [RefTree.chars, List.cons_append, readReference, ht]
    rfl

theorem readArg_chars : ∀ (a : ArgTree) (r : List Char) {fuel : Nat},
    3 * a.chars.length + 2 ≤ fuel → readArg fuel (a.chars ++ r) = some (a.value, r)
  | a, r, 0, h => by omega
  | .any, r, fuel + 1, _ => rfl
  | .upper u, r, fuel + 1, h => by
    rw [ArgTree.chars, List.length_cons] at h
    have hu : readReference fuel (u.chars ++ r) = _ := readReference_chars u r (by omega)
    rw [ArgTree.chars, List.cons_append, readArg, hu]
    rfl
  | .lower u, r, fuel + 1, h => by
    rw [ArgTree.chars, List.length_cons] at h
    have hu : readReference fuel (u.chars ++ r) = _ := readReference_chars u r (by omega)
    rw [ArgTree.chars, List.cons_append, readArg, hu]
    rfl
  | .exact u, r, fuel + 1, h => by
    rw [ArgTree.chars] at h ⊢
    have hu : readReference fuel (u.chars ++ r) = _ := readReference_chars u r (by omega)
    rw [readArg_reference u r, hu]
    rfl

theorem readArgs_chars : ∀ (as : List ArgTree) (r : List Char) {fuel : Nat}, as ≠ [] →
    3 * (argChars as).length + 3 ≤ fuel →
      readArgs fuel (argChars as ++ '>' :: r) = some (argValues as, r)
  | as, r, 0, _, h => by omega
  | [a], r, fuel + 1, _, h => by
    simp only [argChars, List.append_nil] at h ⊢
    have ha : readArg fuel (a.chars ++ '>' :: r) = _ := readArg_chars a _ (by omega)
    rw [readArgs, ha]
    rfl
  | a :: b :: bs, r, fuel + 1, _, h => by
    have hpositive := length_arg_pos a
    rw [argChars, List.length_append] at h
    have ha : readArg fuel (a.chars ++ (argChars (b :: bs) ++ '>' :: r)) = _ :=
      readArg_chars a _ (by omega)
    have hrest : readArgs fuel (argChars (b :: bs) ++ '>' :: r) = _ :=
      readArgs_chars (b :: bs) r (List.cons_ne_nil _ _) (by omega)
    rw [argChars, List.append_assoc, readArgs, ha]
    split
    · next he =>
      have hclosing := (Prod.mk.inj (Option.some.inj he)).2
      rw [argChars, List.append_assoc] at hclosing
      exact absurd hclosing (b.not_closing _ _)
    · next he =>
      obtain ⟨rfl, rfl⟩ := Prod.mk.inj (Option.some.inj he)
      rw [hrest]
      rfl
    · next he => cases he

theorem readSegments_chars : ∀ (ss : List SegmentTree) (r : List Char) {fuel : Nat}
    (name : String) (args : List TypeArg), 3 * (innerChars ss).length + 1 ≤ fuel →
      readSegments fuel name args (innerChars ss ++ ';' :: r) = some (classValue name args ss, r)
  | ss, r, 0, _, _, h => by omega
  | [], r, fuel + 1, name, args, _ => by
    have hname : "$".intercalate [name] = name := String.intercalate_singleton
    rw [innerChars, List.nil_append, readSegments, classValue, List.map_nil, hname]
    rfl
  | .segment ident more :: ss, r, fuel + 1, name, args, h => by
    have hlength := length_segment ident more ss
    have htext : innerChars (.segment ident more :: ss) ++ ';' :: r =
        '.' :: (ident.chars ++ (argsPart more ++ (innerChars ss ++ ';' :: r))) := by
      simp [innerChars]
    rw [htext, readSegments_dot, classValue_segment]
    exact readFromName_chars isIdentChar_iff (fun c hc => ident_stop hc)
      (fun inner => name ++ "$" ++ String.ofList inner) ident
      (fun hne r => readArgs_chars more r hne (by have := length_argsPart hne; omega))
      (fun name values => readSegments_chars ss r name values (by omega))

end

end Complete

/-- What is read in so many steps is the text of a derivation, and the result is its value. -/
structure Derived (fuel : Nat) : Prop where
  type : ∀ {cs t rest}, readType fuel cs = some (t, rest) →
    ∃ tree : TypeTree, cs = tree.chars ++ rest ∧ tree.value = t
  reference : ∀ {cs t rest}, readReference fuel cs = some (t, rest) →
    ∃ tree : RefTree, cs = tree.chars ++ rest ∧ tree.value = t
  segments : ∀ {name args cs t rest}, readSegments fuel name args cs = some (t, rest) →
    ∃ inner, cs = innerChars inner ++ ';' :: rest ∧ classValue name args inner = t
  args : ∀ {cs values rest}, readArgs fuel cs = some (values, rest) →
    ∃ args, args ≠ [] ∧ cs = argChars args ++ '>' :: rest ∧ argValues args = values
  arg : ∀ {cs value rest}, readArg fuel cs = some (value, rest) →
    ∃ arg : ArgTree, cs = arg.chars ++ rest ∧ arg.value = value

namespace Derived

variable {fuel : Nat} {cs rest : List Char}

theorem primitive_letter {c : Char} {p : Primitive} (h : Primitive.ofLetter? c = some p) :
    p.letter = c := by
  have hfound := List.find?_some h
  exact eq_of_beq hfound

theorem fromName (h : Derived fuel) {stops : List Char} {p : Char → Bool}
    (hp : ∀ c, p c = true ↔ c ∉ stops) {join : List Char → String} {t : JType}
    (hread : readFromName fuel p join cs = some (t, rest)) :
    ∃ (w : Word stops) (args : List ArgTree) (inner : List SegmentTree),
      cs = w.chars ++ (argsPart args ++ (innerChars inner ++ ';' :: rest)) ∧
        classValue (join w.chars) (argValues args) inner = t := by
  rw [readFromName] at hread
  split at hread
  · next name after hrun =>
    obtain ⟨w, rfl, rfl⟩ := word_of_readRun hp hrun
    split at hread
    · next values after' hargs =>
      obtain ⟨args, hne, rfl, rfl⟩ := h.args hargs
      obtain ⟨inner, rfl, rfl⟩ := h.segments hread
      refine ⟨w, args, inner, ?_, rfl⟩
      cases args with
      | nil => exact absurd rfl hne
      | cons a as => simp [argsPart, argChars]
    · cases hread
  · next name after _ hrun =>
    obtain ⟨w, rfl, rfl⟩ := word_of_readRun hp hrun
    obtain ⟨inner, rfl, rfl⟩ := h.segments hread
    exact ⟨w, [], inner, by rw [argsPart, List.nil_append], by rw [argValues]⟩
  · cases hread

theorem step_type (h : Derived fuel) {t : JType} (hread : readType (fuel + 1) cs = some (t, rest)) :
    ∃ tree : TypeTree, cs = tree.chars ++ rest ∧ tree.value = t := by
  cases cs with
  | nil => cases hread
  | cons c cs =>
    rw [readType] at hread
    split at hread
    · cases hread
    · next p hvoid hp =>
      obtain ⟨rfl, rfl⟩ := Prod.mk.inj (Option.some.inj hread)
      have hletter := primitive_letter hp
      refine ⟨.base p hvoid, ?_, by rw [TypeTree.value]⟩
      rw [TypeTree.chars, hletter]
      rfl
    · obtain ⟨u, hu, rfl⟩ := h.reference hread
      exact ⟨.ref u, by rw [TypeTree.chars, hu], by rw [TypeTree.value]⟩

theorem step_reference (h : Derived fuel) {t : JType}
    (hread : readReference (fuel + 1) cs = some (t, rest)) :
    ∃ tree : RefTree, cs = tree.chars ++ rest ∧ tree.value = t := by
  cases cs with
  | nil => cases hread
  | cons c cs =>
    by_cases hclass : c = 'L'
    · subst hclass
      rw [readReference_class] at hread
      obtain ⟨head, args, inner, rfl, rfl⟩ := h.fromName isHeadChar_iff hread
      exact ⟨.named head args inner, by simp [RefTree.chars], by rw [RefTree.value]; rfl⟩
    by_cases hvar : c = 'T'
    · subst hvar
      rw [readReference, readVariable] at hread
      split at hread
      · next name after hrun =>
        obtain ⟨rfl, rfl⟩ := Prod.mk.inj (Option.some.inj hread)
        obtain ⟨ident, rfl, rfl⟩ := word_of_readRun isIdentChar_iff hrun
        exact ⟨.var ident, by simp [RefTree.chars], by rw [RefTree.value]; rfl⟩
      · cases hread
    by_cases harray : c = '['
    · subst harray
      rw [readReference, Option.map_eq_some_iff] at hread
      obtain ⟨⟨e, after⟩, he, hmade⟩ := hread
      obtain ⟨rfl, rfl⟩ := Prod.mk.inj hmade
      obtain ⟨tree, rfl, rfl⟩ := h.type he
      exact ⟨.array tree, by simp [RefTree.chars], by rw [RefTree.value]; rfl⟩
    · rw [readReference] at hread
      · cases hread
      · exact fun _ he => hclass (List.cons.inj he).1
      · exact fun _ he => hvar (List.cons.inj he).1
      · exact fun _ he => harray (List.cons.inj he).1

theorem step_segments (h : Derived fuel) {name : String} {args : List TypeArg} {t : JType}
    (hread : readSegments (fuel + 1) name args cs = some (t, rest)) :
    ∃ inner, cs = innerChars inner ++ ';' :: rest ∧ classValue name args inner = t := by
  cases cs with
  | nil => simp [readSegments] at hread
  | cons c cs =>
    by_cases hend : c = ';'
    · subst hend
      rw [readSegments] at hread
      obtain ⟨rfl, rfl⟩ := Prod.mk.inj (Option.some.inj hread)
      refine ⟨[], by rw [innerChars, List.nil_append], ?_⟩
      rw [classValue, List.map_nil, String.intercalate_singleton]
      rfl
    by_cases hdot : c = '.'
    · subst hdot
      rw [readSegments_dot] at hread
      obtain ⟨ident, more, inner, rfl, rfl⟩ := h.fromName isIdentChar_iff hread
      exact ⟨.segment ident more :: inner, by simp [innerChars], classValue_segment ..⟩
    · rw [readSegments] at hread
      · cases hread
      · exact fun _ he => hend (List.cons.inj he).1
      · exact fun _ he => hdot (List.cons.inj he).1

theorem step_args (h : Derived fuel) {values : List TypeArg}
    (hread : readArgs (fuel + 1) cs = some (values, rest)) :
    ∃ args, args ≠ [] ∧ cs = argChars args ++ '>' :: rest ∧ argValues args = values := by
  rw [readArgs] at hread
  split at hread
  · next value after hfirst =>
    obtain ⟨rfl, rfl⟩ := Prod.mk.inj (Option.some.inj hread)
    obtain ⟨a, rfl, rfl⟩ := h.arg hfirst
    exact ⟨[a], List.cons_ne_nil _ _, by simp [argChars], by simp [argValues]⟩
  · next value after _ hfirst =>
    obtain ⟨a, rfl, rfl⟩ := h.arg hfirst
    obtain ⟨⟨others, after'⟩, hothers, hmade⟩ := Option.map_eq_some_iff.mp hread
    obtain ⟨rfl, rfl⟩ := Prod.mk.inj hmade
    obtain ⟨as, _, rfl, rfl⟩ := h.args hothers
    exact ⟨a :: as, List.cons_ne_nil _ _, by simp [argChars], by simp [argValues]⟩
  · cases hread

theorem step_arg (h : Derived fuel) {value : TypeArg}
    (hread : readArg (fuel + 1) cs = some (value, rest)) :
    ∃ arg : ArgTree, cs = arg.chars ++ rest ∧ arg.value = value := by
  have hbound : ∀ {cs : List Char} {mark : JType → TypeArg},
      (readReference fuel cs).map (fun (t, rest) => (mark t, rest)) = some (value, rest) →
        ∃ u : RefTree, cs = u.chars ++ rest ∧ mark u.value = value := by
    intro cs mark hmap
    obtain ⟨⟨t, after⟩, ht, hmade⟩ := Option.map_eq_some_iff.mp hmap
    obtain ⟨rfl, rfl⟩ := Prod.mk.inj hmade
    obtain ⟨u, rfl, rfl⟩ := h.reference ht
    exact ⟨u, rfl, rfl⟩
  cases cs with
  | nil =>
    obtain ⟨u, hu, rfl⟩ := @hbound [] .exact hread
    exact ⟨.exact u, by rw [ArgTree.chars, hu], by rw [ArgTree.value]⟩
  | cons c cs =>
    by_cases hany : c = '*'
    · subst hany
      rw [readArg] at hread
      obtain ⟨rfl, rfl⟩ := Prod.mk.inj (Option.some.inj hread)
      exact ⟨.any, rfl, by rw [ArgTree.value]⟩
    by_cases hupper : c = '+'
    · subst hupper
      rw [readArg] at hread
      obtain ⟨u, rfl, rfl⟩ := hbound hread
      exact ⟨.upper u, by rw [ArgTree.chars]; rfl, by rw [ArgTree.value]⟩
    by_cases hlower : c = '-'
    · subst hlower
      rw [readArg] at hread
      obtain ⟨u, rfl, rfl⟩ := hbound hread
      exact ⟨.lower u, by rw [ArgTree.chars]; rfl, by rw [ArgTree.value]⟩
    · rw [readArg] at hread
      · obtain ⟨u, hu, rfl⟩ := hbound hread
        exact ⟨.exact u, by rw [ArgTree.chars, hu], by rw [ArgTree.value]⟩
      · exact fun _ he => hany (List.cons.inj he).1
      · exact fun _ he => hupper (List.cons.inj he).1
      · exact fun _ he => hlower (List.cons.inj he).1

end Derived

theorem derived (fuel : Nat) : Derived fuel := by
  induction fuel with
  | zero => exact ⟨nofun, nofun, nofun, nofun, nofun⟩
  | succ fuel ih =>
    exact ⟨ih.step_type, ih.step_reference, ih.step_segments, ih.step_args, ih.step_arg⟩

theorem typeAt_iff {cs rest : List Char} {t : JType} :
    typeAt cs = some (t, rest) ↔ ∃ tree : TypeTree, cs = tree.chars ++ rest ∧ tree.value = t := by
  constructor
  · exact (derived (steps cs)).type
  · rintro ⟨tree, rfl, rfl⟩
    refine readType_chars tree rest ?_
    rw [steps, List.length_append]
    omega

section Rows

variable {α β : Type} {read : List Char → Read β} {text : α → List Char} {value : α → β}

/-- As many values are read as are spelled in a row. -/
theorem readMany_row {xs : List α} {r : List Char}
    (hxs : ∀ x ∈ xs, ∀ s, read (text x ++ s) = some (value x, s)) (hr : read r = none)
    {fuel : Nat} (hfuel : xs.length ≤ fuel) :
    readMany read fuel (xs.flatMap text ++ r) = (xs.map value, r) := by
  induction xs generalizing fuel with
  | nil =>
    cases fuel with
    | zero => rfl
    | succ fuel => rw [List.flatMap_nil, List.nil_append, readMany, hr]; rfl
  | cons x xs ih =>
    cases fuel with
    | zero => simp at hfuel
    | succ fuel =>
      have hfirst := hxs x List.mem_cons_self (xs.flatMap text ++ r)
      have hrest := ih (fun y hy => hxs y (List.mem_cons_of_mem _ hy))
        (Nat.le_of_succ_le_succ hfuel)
      rw [List.flatMap_cons, List.append_assoc, readMany, hfirst]
      simp only [hrest, List.map_cons]

theorem length_le_flatMap {xs : List α} (hxs : ∀ x ∈ xs, text x ≠ []) :
    xs.length ≤ (xs.flatMap text).length := by
  induction xs with
  | nil => simp
  | cons x xs ih =>
    have hpositive : 0 < (text x).length :=
      List.length_pos_iff.mpr (hxs x List.mem_cons_self)
    have hle := ih fun y hy => hxs y (List.mem_cons_of_mem _ hy)
    rw [List.flatMap_cons, List.length_cons, List.length_append]
    omega

theorem many_row {xs : List α} {r : List Char} (hne : ∀ x ∈ xs, text x ≠ [])
    (hxs : ∀ x ∈ xs, ∀ s, read (text x ++ s) = some (value x, s)) (hr : read r = none) :
    many read (xs.flatMap text ++ r) = (xs.map value, r) := by
  have hlength := length_le_flatMap hne
  refine readMany_row hxs hr ?_
  rw [List.length_append]
  omega

end Rows

theorem chars_ne_nil (t : TypeTree) : t.chars ≠ [] := by
  cases t with
  | base p hp => simp [TypeTree.chars]
  | ref u =>
    obtain ⟨c, cs, hu, _⟩ := u.first
    simp [TypeTree.chars, hu]

theorem many_types (ts : List TypeTree) {r : List Char} (hr : typeAt r = none) :
    many typeAt (ts.flatMap TypeTree.chars ++ r) = (ts.map TypeTree.value, r) :=
  many_row (fun t _ => chars_ne_nil t) (fun t _ _ => typeAt_iff.mpr ⟨t, rfl, rfl⟩) hr

theorem types_of_readMany {fuel : Nat} {cs rest : List Char} {values : List JType}
    (h : readMany typeAt fuel cs = (values, rest)) :
    ∃ ts : List TypeTree, cs = ts.flatMap TypeTree.chars ++ rest ∧
      ts.map TypeTree.value = values := by
  induction fuel generalizing cs values with
  | zero =>
    obtain ⟨rfl, rfl⟩ := Prod.mk.inj h
    exact ⟨[], rfl, rfl⟩
  | succ fuel ih =>
    rw [readMany] at h
    split at h
    · next value after hfirst =>
      obtain ⟨t, rfl, rfl⟩ := typeAt_iff.mp hfirst
      obtain ⟨rfl, rfl⟩ := Prod.mk.inj h
      obtain ⟨ts, hts, hvalues⟩ := @ih after _ rfl
      refine ⟨t :: ts, ?_, by rw [List.map_cons, hvalues]⟩
      rw [List.flatMap_cons, List.append_assoc, ← hts]
    · obtain ⟨rfl, rfl⟩ := Prod.mk.inj h
      exact ⟨[], rfl, rfl⟩

theorem readResult_iff {cs rest : List Char} {t : JType} :
    readResult cs = some (t, rest) ↔ ∃ result : Option TypeTree,
      cs = result.elim ['V'] TypeTree.chars ++ rest ∧
        result.elim (.prim .void 0) TypeTree.value = t := by
  constructor
  · intro h
    rw [readResult.eq_def] at h
    split at h
    · obtain ⟨rfl, rfl⟩ := Prod.mk.inj (Option.some.inj h)
      exact ⟨none, rfl, rfl⟩
    · obtain ⟨tree, rfl, rfl⟩ := typeAt_iff.mp h
      exact ⟨some tree, rfl, rfl⟩
  · rintro ⟨result, rfl, rfl⟩
    cases result with
    | none => rfl
    | some tree =>
      have hread : typeAt (tree.chars ++ rest) = some (tree.value, rest) :=
        typeAt_iff.mpr ⟨tree, rfl, rfl⟩
      rw [Option.elim_some, Option.elim_some, readResult]
      · exact hread
      · exact fun _ he => tree.not_after 'V' (by decide) _ _ he

theorem typeAt_closing (r : List Char) : typeAt (')' :: r) = none := rfl

theorem readMethod_iff {cs rest : List Char} {d : MethodDescriptor} :
    readMethod cs = some (d, rest) ↔
      ∃ tree : MethodTree, cs = tree.chars ++ rest ∧ tree.value = d := by
  constructor
  · intro h
    rw [readMethod.eq_def] at h
    split at h
    · next after =>
      split at h
      · next values after' hparams =>
        obtain ⟨params, rfl, rfl⟩ := types_of_readMany hparams
        obtain ⟨⟨t, r⟩, hresult, hmade⟩ := Option.map_eq_some_iff.mp h
        obtain ⟨rfl, rfl⟩ := Prod.mk.inj hmade
        obtain ⟨result, rfl, rfl⟩ := readResult_iff.mp hresult
        exact ⟨⟨params, result⟩, by simp [MethodTree.chars], rfl⟩
      · cases h
    · cases h
  · rintro ⟨⟨params, result⟩, rfl, rfl⟩
    have hresult : readResult (result.elim ['V'] TypeTree.chars ++ rest) =
        some (result.elim (.prim .void 0) TypeTree.value, rest) :=
      readResult_iff.mpr ⟨result, rfl, rfl⟩
    have htext : (MethodTree.mk params result).chars ++ rest = '(' ::
        (params.flatMap TypeTree.chars ++ ')' :: (result.elim ['V'] TypeTree.chars ++ rest)) := by
      simp [MethodTree.chars]
    generalize result.elim ['V'] TypeTree.chars ++ rest = after at hresult htext
    have hparams := many_types params (typeAt_closing after)
    rw [htext, readMethod, hparams]
    simp only [hresult, Option.map_some]
    rfl

theorem whole_eq_ok_iff {α : Type} (form : SignatureForm) (read : List Char → Read α)
    (input : String) (a : α) :
    whole form read input = .ok a ↔ read input.toList = some (a, []) := by
  rw [whole]
  split
  · next b hread => simp [hread]
  · next b rest hne hread =>
    simp only [reduceCtorEq, false_iff, hread, Option.some.injEq, Prod.mk.injEq, not_and]
    exact fun _ hrest => hne hrest
  · next hread => simp [hread]

/-- The grammar is unambiguous, and the parsers accept its texts and no others, with their
values. -/
theorem parsers_follow_grammar :
    (Function.Injective TypeTree.chars ∧ Function.Injective MethodTree.chars) ∧
      (∀ s t, parseFieldType s = .ok t ↔
        ∃ tree : TypeTree, tree.chars = s.toList ∧ tree.value = t) ∧
      ∀ s d, parseMethodDescriptor s = .ok d ↔
        ∃ tree : MethodTree, tree.chars = s.toList ∧ tree.value = d := by
  refine ⟨⟨TypeTree.chars_injective, MethodTree.chars_injective⟩, fun s t => ?_, fun s d => ?_⟩
  · rw [parseFieldType, whole_eq_ok_iff, typeAt_iff]
    simp only [List.append_nil, eq_comm]
  · rw [parseMethodDescriptor, whole_eq_ok_iff, readMethod_iff]
    simp only [List.append_nil, eq_comm]

end ClassSketch.Signature
