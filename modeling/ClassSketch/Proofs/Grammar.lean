import ClassSketch.Type.Signature
import Mathlib.Data.List.Basic

/-! Descriptors by their grammar. A derivation is a tree. Its leaves give the text, and it has a
value: what the text stands for.

    Type   ::= one of BCDFIJSZ | Ref
    Ref    ::= 'L' Head Args? ('.' Ident Args?)* ';' | 'T' Ident ';' | '[' Type
    Args   ::= '<' Arg+ '>'
    Arg    ::= '*' | '+' Ref | '-' Ref | Ref
    Method ::= '(' Type* ')' ('V' | Type)

No two trees have the same text, and no text of a type is the start of another one. -/

namespace ClassSketch.Grammar

/-- A text that is not empty and holds none of the given characters. -/
structure Word (stops : List Char) where
  chars : List Char
  nonempty : chars ≠ []
  free : ∀ c ∈ chars, c ∉ stops

abbrev Head := Word ['<', '.', ';']

abbrev Ident := Word ['.', ';', '[', '/', '<', '>', ':']

def Word.text {stops : List Char} (w : Word stops) : String := String.ofList w.chars

mutual

inductive TypeTree where
  | base (p : Primitive) (sized : p ≠ .void)
  | ref (r : RefTree)

/-- Arguments that are left out are an empty list. -/
inductive RefTree where
  | named (head : Head) (args : List ArgTree) (inner : List SegmentTree)
  | var (name : Ident)
  | array (element : TypeTree)

inductive SegmentTree where
  | segment (name : Ident) (args : List ArgTree)

inductive ArgTree where
  | any
  | upper (bound : RefTree)
  | lower (bound : RefTree)
  | exact (type : RefTree)

end

mutual

def TypeTree.chars : TypeTree → List Char
  | .base p _ => [p.letter]
  | .ref r => r.chars

def RefTree.chars : RefTree → List Char
  | .named head args inner => 'L' :: (head.chars ++ (argsPart args ++ (innerChars inner ++ [';'])))
  | .var name => 'T' :: (name.chars ++ [';'])
  | .array element => '[' :: element.chars

def ArgTree.chars : ArgTree → List Char
  | .any => ['*']
  | .upper bound => '+' :: bound.chars
  | .lower bound => '-' :: bound.chars
  | .exact type => type.chars

def argChars : List ArgTree → List Char
  | [] => []
  | a :: as => a.chars ++ argChars as

/-- Arguments in brackets, or nothing. -/
def argsPart : List ArgTree → List Char
  | [] => []
  | a :: as => '<' :: (a.chars ++ (argChars as ++ ['>']))

def innerChars : List SegmentTree → List Char
  | [] => []
  | .segment name args :: ss => '.' :: (name.chars ++ (argsPart args ++ innerChars ss))

end

def SegmentTree.name : SegmentTree → Ident
  | .segment name _ => name

mutual

def TypeTree.value : TypeTree → JType
  | .base p _ => .prim p 0
  | .ref r => r.value

/-- The names of a class type are joined, and the last arguments count. -/
def RefTree.value : RefTree → JType
  | .named head args inner =>
    .named ("$".intercalate (head.text :: inner.map fun s => s.name.text))
      ((argValues args :: innerArgs inner).getLast (List.cons_ne_nil _ _)) 0
  | .var name => .var name.text 0
  | .array element =>
    let e := element.value
    e.withDepth (min 255 (e.depth + 1))

def ArgTree.value : ArgTree → TypeArg
  | .any => .wildcard
  | .upper bound => .upper bound.value
  | .lower bound => .lower bound.value
  | .exact type => .exact type.value

def argValues : List ArgTree → List TypeArg
  | [] => []
  | a :: as => a.value :: argValues as

def innerArgs : List SegmentTree → List (List TypeArg)
  | [] => []
  | .segment _ args :: ss => argValues args :: innerArgs ss

end

/-- A method descriptor; no result stands for `V`. -/
structure MethodTree where
  params : List TypeTree
  result : Option TypeTree

namespace MethodTree

def chars (m : MethodTree) : List Char :=
  '(' :: (m.params.flatMap TypeTree.chars ++ ')' :: m.result.elim ['V'] TypeTree.chars)

def value (m : MethodTree) : MethodDescriptor :=
  ⟨m.params.map TypeTree.value, m.result.elim (.prim .void 0) TypeTree.value⟩

end MethodTree

section Unambiguous

/-- A word ends where the first of its stops stands. -/
theorem Word.unique {stops : List Char} {w w' : Word stops} {c c' : Char} {r r' : List Char}
    (hc : c ∈ stops) (hc' : c' ∈ stops) (h : w.chars ++ c :: r = w'.chars ++ c' :: r') :
    w = w' ∧ c :: r = c' :: r' := by
  obtain ⟨xs, hxs, hx⟩ := w
  obtain ⟨ys, hys, hy⟩ := w'
  have hsame : ∀ xs ys : List Char, (∀ x ∈ xs, x ∉ stops) → (∀ y ∈ ys, y ∉ stops) →
      xs ++ c :: r = ys ++ c' :: r' → xs = ys ∧ c :: r = c' :: r' := by
    intro xs
    induction xs with
    | nil =>
      intro ys _ hy h
      cases ys with
      | nil => exact ⟨rfl, h⟩
      | cons y ys =>
        obtain ⟨rfl, _⟩ := List.cons.inj h
        exact absurd hc (hy c List.mem_cons_self)
    | cons x xs ih =>
      intro ys hx hy h
      cases ys with
      | nil =>
        obtain ⟨rfl, _⟩ := List.cons.inj h
        exact absurd hc' (hx x List.mem_cons_self)
      | cons y ys =>
        obtain ⟨rfl, htail⟩ := List.cons.inj h
        obtain ⟨rfl, hrest⟩ := ih ys (fun a ha => hx a (List.mem_cons_of_mem _ ha))
          (fun a ha => hy a (List.mem_cons_of_mem _ ha)) htail
        exact ⟨rfl, hrest⟩
  obtain ⟨rfl, hrest⟩ := hsame xs ys hx hy h
  exact ⟨rfl, hrest⟩

theorem RefTree.first (u : RefTree) :
    ∃ c cs, u.chars = c :: cs ∧ (c = 'L' ∨ c = 'T' ∨ c = '[') := by
  cases u with
  | named head args inner => exact ⟨_, _, by rw [RefTree.chars], by simp⟩
  | var name => exact ⟨_, _, by rw [RefTree.chars], by simp⟩
  | array element => exact ⟨_, _, by rw [RefTree.chars], by simp⟩

/-- A reference type starts with none of the other characters that may stand in its place. -/
theorem RefTree.not_after (u : RefTree) (c : Char) (hc : c ∈ ['*', '+', '-', '>', ')', 'V'])
    (x y : List Char) : u.chars ++ x ≠ c :: y := by
  obtain ⟨d, cs, hu, hd⟩ := u.first
  rw [hu]
  intro h
  obtain ⟨rfl, _⟩ := List.cons.inj h
  rcases hd with rfl | rfl | rfl <;> simp at hc

theorem RefTree.not_letter (u : RefTree) (p : Primitive) (x y : List Char) :
    u.chars ++ x ≠ p.letter :: y := by
  obtain ⟨c, cs, hu, hc⟩ := u.first
  rw [hu]
  intro h
  have hletter : c = p.letter := (List.cons.inj h).1
  rcases hc with rfl | rfl | rfl <;> cases p <;> simp [Primitive.letter] at hletter

theorem ArgTree.not_closing (a : ArgTree) (x y : List Char) : a.chars ++ x ≠ '>' :: y := by
  cases a with
  | any => simp [ArgTree.chars]
  | upper u => simp [ArgTree.chars]
  | lower u => simp [ArgTree.chars]
  | exact u =>
    rw [ArgTree.chars]
    exact u.not_after '>' (by decide) x y

theorem TypeTree.not_after (t : TypeTree) (c : Char) (hc : c ∈ [')', 'V']) (x y : List Char) :
    t.chars ++ x ≠ c :: y := by
  cases t with
  | base p hp =>
    intro h
    have hletter : p.letter = c := (List.cons.inj h).1
    subst hletter
    cases p <;> simp [Primitive.letter] at hp hc
  | ref u =>
    rw [TypeTree.chars]
    exact u.not_after c (by simp at hc ⊢; tauto) x y

theorem ident_stop {c : Char} (hc : c = '<' ∨ c = '.' ∨ c = ';') :
    c ∈ ['.', ';', '[', '/', '<', '>', ':'] := by
  rcases hc with rfl | rfl | rfl <;> decide

/-- What follows a name in a class type. -/
theorem after_name (args : List ArgTree) (inner : List SegmentTree) (r : List Char) :
    ∃ c cs, argsPart args ++ (innerChars inner ++ ';' :: r) = c :: cs ∧
      (c = '<' ∨ c = '.' ∨ c = ';') := by
  cases args with
  | cons a as => exact ⟨_, _, by rw [argsPart]; rfl, by simp⟩
  | nil =>
    cases inner with
    | nil => exact ⟨_, _, by rw [argsPart, innerChars]; rfl, by simp⟩
    | cons s ss =>
      obtain ⟨name, args⟩ := s
      exact ⟨_, _, by rw [argsPart, innerChars]; rfl, by simp⟩

/-- The arguments and the inner names of a class type, from what is known of each. -/
theorem after_name_unique {args args' : List ArgTree} {inner inner' : List SegmentTree}
    {r r' : List Char}
    (hargs : ∀ as {x x' : List Char}, argChars args ++ '>' :: x = argChars as ++ '>' :: x' →
      args = as ∧ x = x')
    (hinner : innerChars inner ++ ';' :: r = innerChars inner' ++ ';' :: r' →
      inner = inner' ∧ r = r')
    (h : argsPart args ++ (innerChars inner ++ ';' :: r) =
      argsPart args' ++ (innerChars inner' ++ ';' :: r')) :
    args = args' ∧ inner = inner' ∧ r = r' := by
  -- Arguments begin with a bracket, and what may stand there without them does not.
  have hstart : ∀ (ss : List SegmentTree) (a : ArgTree) (as : List ArgTree) (x y : List Char),
      innerChars ss ++ ';' :: x ≠ argsPart (a :: as) ++ y := by
    intro ss a as x y
    cases ss with
    | nil => simp [innerChars, argsPart]
    | cons s ss =>
      obtain ⟨name, args⟩ := s
      simp [innerChars, argsPart]
  cases args with
  | nil =>
    cases args' with
    | nil => exact ⟨rfl, hinner h⟩
    | cons a as => exact absurd h (hstart _ _ _ _ _)
  | cons a as =>
    cases args' with
    | nil => exact absurd h.symm (hstart _ _ _ _ _)
    | cons a' as' =>
      have hchars : argChars (a :: as) ++ '>' :: (innerChars inner ++ ';' :: r) =
          argChars (a' :: as') ++ '>' :: (innerChars inner' ++ ';' :: r') := by
        simpa [argsPart, argChars] using h
      obtain ⟨hsame, hrest⟩ := hargs _ hchars
      exact ⟨hsame, hinner hrest⟩

mutual

theorem TypeTree.unique : ∀ (t t' : TypeTree) {r r' : List Char},
    t.chars ++ r = t'.chars ++ r' → t = t' ∧ r = r'
  | .base p hp, .base q hq, r, r', h => by
    have hletter : p.letter = q.letter ∧ r = r' := by simpa [TypeTree.chars] using h
    have hpq : p = q := by
      revert hletter
      cases p <;> cases q <;> simp [Primitive.letter]
    subst hpq
    exact ⟨rfl, hletter.2⟩
  | .base p hp, .ref u, r, r', h => by
    rw [TypeTree.chars, TypeTree.chars] at h
    exact absurd h.symm (u.not_letter p _ _)
  | .ref u, .base p hp, r, r', h => by
    rw [TypeTree.chars, TypeTree.chars] at h
    exact absurd h (u.not_letter p _ _)
  | .ref u, .ref u', r, r', h => by
    rw [TypeTree.chars, TypeTree.chars] at h
    obtain ⟨rfl, hr⟩ := RefTree.unique u u' h
    exact ⟨rfl, hr⟩

theorem RefTree.unique : ∀ (u u' : RefTree) {r r' : List Char},
    u.chars ++ r = u'.chars ++ r' → u = u' ∧ r = r'
  | .named head args inner, .named head' args' inner', r, r', h => by
    obtain ⟨c, cs, hcs, hc⟩ := after_name args inner r
    obtain ⟨c', cs', hcs', hc'⟩ := after_name args' inner' r'
    have hheads : head.chars ++ (argsPart args ++ (innerChars inner ++ ';' :: r)) =
        head'.chars ++ (argsPart args' ++ (innerChars inner' ++ ';' :: r')) := by
      simpa [RefTree.chars] using h
    rw [hcs, hcs'] at hheads
    obtain ⟨rfl, hrest⟩ := Word.unique (by simpa using hc) (by simpa using hc') hheads
    rw [← hcs, ← hcs'] at hrest
    obtain ⟨rfl, rfl, hr⟩ := after_name_unique (fun as => args_unique args as)
      (inner_unique inner inner') hrest
    exact ⟨rfl, hr⟩
  | .var name, .var name', r, r', h => by
    have hnames : name.chars ++ ';' :: r = name'.chars ++ ';' :: r' := by
      simpa [RefTree.chars] using h
    obtain ⟨rfl, hr⟩ := Word.unique (by simp) (by simp) hnames
    exact ⟨rfl, (List.cons.inj hr).2⟩
  | .array t, .array t', r, r', h => by
    have ht : t.chars ++ r = t'.chars ++ r' := by simpa [RefTree.chars] using h
    obtain ⟨rfl, hr⟩ := TypeTree.unique t t' ht
    exact ⟨rfl, hr⟩
  | .named .., .var .., _, _, h => by simp [RefTree.chars] at h
  | .named .., .array .., _, _, h => by simp [RefTree.chars] at h
  | .var .., .named .., _, _, h => by simp [RefTree.chars] at h
  | .var .., .array .., _, _, h => by simp [RefTree.chars] at h
  | .array .., .named .., _, _, h => by simp [RefTree.chars] at h
  | .array .., .var .., _, _, h => by simp [RefTree.chars] at h

theorem ArgTree.unique : ∀ (a a' : ArgTree) {r r' : List Char},
    a.chars ++ r = a'.chars ++ r' → a = a' ∧ r = r'
  | .any, a', r, r', h => by
    cases a' with
    | any => exact ⟨rfl, by simpa [ArgTree.chars] using h⟩
    | exact u => exact absurd h.symm (u.not_after '*' (by decide) r' r)
    | upper u => simp [ArgTree.chars] at h
    | lower u => simp [ArgTree.chars] at h
  | .upper u, a', r, r', h => by
    cases a' with
    | upper u' =>
      obtain ⟨rfl, hr⟩ := RefTree.unique u u' (by simpa [ArgTree.chars] using h)
      exact ⟨rfl, hr⟩
    | exact u' => exact absurd h.symm (u'.not_after '+' (by decide) r' _)
    | any => simp [ArgTree.chars] at h
    | lower u' => simp [ArgTree.chars] at h
  | .lower u, a', r, r', h => by
    cases a' with
    | lower u' =>
      obtain ⟨rfl, hr⟩ := RefTree.unique u u' (by simpa [ArgTree.chars] using h)
      exact ⟨rfl, hr⟩
    | exact u' => exact absurd h.symm (u'.not_after '-' (by decide) r' _)
    | any => simp [ArgTree.chars] at h
    | upper u' => simp [ArgTree.chars] at h
  | .exact u, a', r, r', h => by
    cases a' with
    | exact u' =>
      obtain ⟨rfl, hr⟩ := RefTree.unique u u' h
      exact ⟨rfl, hr⟩
    | any => exact absurd h (u.not_after '*' (by decide) r r')
    | upper u' => exact absurd h (u.not_after '+' (by decide) r _)
    | lower u' => exact absurd h (u.not_after '-' (by decide) r _)

theorem args_unique : ∀ (as as' : List ArgTree) {r r' : List Char},
    argChars as ++ '>' :: r = argChars as' ++ '>' :: r' → as = as' ∧ r = r'
  | [], [], _, _, h => ⟨rfl, (List.cons.inj h).2⟩
  | [], a :: as, r, r', h => by
    rw [argChars, argChars, List.append_assoc] at h
    exact absurd h.symm (a.not_closing _ _)
  | a :: as, [], r, r', h => by
    rw [argChars, argChars, List.append_assoc] at h
    exact absurd h (a.not_closing _ _)
  | a :: as, a' :: as', r, r', h => by
    rw [argChars, argChars, List.append_assoc, List.append_assoc] at h
    obtain ⟨rfl, hrest⟩ := ArgTree.unique a a' h
    obtain ⟨rfl, hr⟩ := args_unique as as' hrest
    exact ⟨rfl, hr⟩

theorem inner_unique : ∀ (ss ss' : List SegmentTree) {r r' : List Char},
    innerChars ss ++ ';' :: r = innerChars ss' ++ ';' :: r' → ss = ss' ∧ r = r'
  | [], [], _, _, h => ⟨rfl, (List.cons.inj h).2⟩
  | [], .segment .. :: _, _, _, h => by simp [innerChars] at h
  | .segment .. :: _, [], _, _, h => by simp [innerChars] at h
  | .segment name args :: ss, .segment name' args' :: ss', r, r', h => by
    obtain ⟨c, cs, hcs, hc⟩ := after_name args ss r
    obtain ⟨c', cs', hcs', hc'⟩ := after_name args' ss' r'
    have hnames : name.chars ++ (argsPart args ++ (innerChars ss ++ ';' :: r)) =
        name'.chars ++ (argsPart args' ++ (innerChars ss' ++ ';' :: r')) := by
      simpa [innerChars] using h
    rw [hcs, hcs'] at hnames
    obtain ⟨rfl, hrest⟩ := Word.unique (ident_stop hc) (ident_stop hc') hnames
    rw [← hcs, ← hcs'] at hrest
    obtain ⟨rfl, rfl, hr⟩ := after_name_unique (fun as => args_unique args as)
      (inner_unique ss ss') hrest
    exact ⟨rfl, hr⟩

end

theorem types_unique : ∀ (ts ts' : List TypeTree) {r r' : List Char},
    ts.flatMap TypeTree.chars ++ ')' :: r = ts'.flatMap TypeTree.chars ++ ')' :: r' →
      ts = ts' ∧ r = r'
  | [], [], _, _, h => ⟨rfl, (List.cons.inj h).2⟩
  | [], t :: ts, r, r', h => by
    rw [List.flatMap_cons, List.append_assoc] at h
    exact absurd h.symm (t.not_after ')' (by decide) _ _)
  | t :: ts, [], r, r', h => by
    rw [List.flatMap_cons, List.append_assoc] at h
    exact absurd h (t.not_after ')' (by decide) _ _)
  | t :: ts, t' :: ts', r, r', h => by
    rw [List.flatMap_cons, List.flatMap_cons, List.append_assoc, List.append_assoc] at h
    obtain ⟨rfl, hrest⟩ := TypeTree.unique t t' h
    obtain ⟨rfl, hr⟩ := types_unique ts ts' hrest
    exact ⟨rfl, hr⟩

theorem TypeTree.chars_injective : Function.Injective TypeTree.chars := by
  intro t t' h
  exact (TypeTree.unique t t' (congrArg (· ++ []) h)).1

theorem MethodTree.chars_injective : Function.Injective MethodTree.chars := by
  rintro ⟨params, result⟩ ⟨params', result'⟩ h
  obtain ⟨rfl, hresult⟩ := types_unique params params' (List.cons.inj h).2
  have hvoid : ∀ t : TypeTree, t.chars ≠ ['V'] := by
    intro t ht
    exact t.not_after 'V' (by decide) [] [] (by simpa using ht)
  cases result with
  | none =>
    cases result' with
    | none => rfl
    | some t => exact absurd hresult.symm (hvoid t)
  | some t =>
    cases result' with
    | none => exact absurd hresult (hvoid t)
    | some t' => rw [TypeTree.chars_injective hresult]

end Unambiguous

end ClassSketch.Grammar
