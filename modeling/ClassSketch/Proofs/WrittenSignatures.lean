import ClassSketch.Proofs.Spelling

/-! Generic signatures from their parts. The bounds of a type parameter may all be left out, and
then nothing but a colon stands between its name and the next one. A next name that begins with `L`
is then read as a class bound if a semicolon follows somewhere, since a class name may hold a colon.
In no other way does a signature fail to be read back. -/

namespace ClassSketch

open Grammar

/-- A type parameter as it is declared. -/
structure ParamForm where
  name : String
  classBound : Option JType
  interfaceBounds : List JType

namespace ParamForm

def bounds (p : ParamForm) : List JType := p.classBound.toList ++ p.interfaceBounds

/-- A parameter without bounds is bounded by `Object`. -/
def value (p : ParamForm) : TypeParameter :=
  ⟨p.name, if p.bounds.isEmpty then [JType.object] else p.bounds⟩

def spellBounds (p : ParamForm) : List Char :=
  p.classBound.toList.flatMap JType.spell ++ p.interfaceBounds.flatMap fun t => ':' :: t.spell

def spell (p : ParamForm) : List Char := p.name.toList ++ ':' :: p.spellBounds

@[mk_iff]
structure Spellable (p : ParamForm) : Prop where
  name : IsIdentifier p.name
  bounds : ∀ t ∈ p.bounds, t.IsReference ∧ t.Spellable

instance : DecidablePred Spellable := fun p => decidable_of_iff _ (spellable_iff p).symm

/-- Type parameters up to the closing bracket, and what follows it. -/
def spellUpTo (ps : List ParamForm) (after : List Char) : List Char :=
  ps.flatMap spell ++ '>' :: after

/-- Type parameters in brackets, or nothing, and what follows. -/
def spellBefore (ps : List ParamForm) (after : List Char) : List Char :=
  if ps.isEmpty then after else '<' :: spellUpTo ps after

/-- A parameter without bounds stands right before the last ones given, and the first of these has a
name that begins with `L`. -/
inductive Exposed : List ParamForm → List ParamForm → Prop
  | here {p q : ParamForm} {ps : List ParamForm} (bare : p.bounds = [])
      (first : q.name.toList.head? = some 'L') : Exposed (p :: q :: ps) (q :: ps)
  | later {p : ParamForm} {ps last : List ParamForm} (h : Exposed ps last) : Exposed (p :: ps) last

/-- The text that follows is read as the class bound that the parameter lacks. -/
def Swallows (p : ParamForm) (cs : List Char) : Prop :=
  p.bounds = [] ∧ cs.head? = some 'L' ∧ ';' ∈ cs

def Confused (ps : List ParamForm) (after : List Char) : Prop :=
  ∃ last, Exposed ps last ∧ ';' ∈ spellUpTo last after

end ParamForm

structure ClassForm where
  typeParams : List ParamForm
  superclass : JType
  interfaces : List JType

namespace ClassForm

def value (f : ClassForm) : ClassSignature :=
  ⟨f.typeParams.map ParamForm.value, f.superclass, f.interfaces⟩

def spellTypes (f : ClassForm) : List Char := (f.superclass :: f.interfaces).flatMap JType.spell

def text (f : ClassForm) : String :=
  String.ofList (ParamForm.spellBefore f.typeParams f.spellTypes)

@[mk_iff]
structure Spellable (f : ClassForm) : Prop where
  typeParams : ∀ p ∈ f.typeParams, p.Spellable
  types : ∀ t ∈ f.superclass :: f.interfaces, t.IsClass ∧ t.Spellable

instance : DecidablePred Spellable := fun f => decidable_of_iff _ (spellable_iff f).symm

end ClassForm

/-- No result stands for `void`. -/
structure MethodForm where
  typeParams : List ParamForm
  params : List JType
  result : Option JType
  throws : List JType

namespace MethodForm

def value (f : MethodForm) : MethodSignature :=
  ⟨f.typeParams.map ParamForm.value, f.params, f.result.getD (.prim .void 0), f.throws⟩

def spellTypes (f : MethodForm) : List Char :=
  '(' :: (f.params.flatMap JType.spell ++ ')' :: (f.result.elim ['V'] JType.spell ++
    f.throws.flatMap fun t => '^' :: t.spell))

def text (f : MethodForm) : String :=
  String.ofList (ParamForm.spellBefore f.typeParams f.spellTypes)

@[mk_iff]
structure Spellable (f : MethodForm) : Prop where
  typeParams : ∀ p ∈ f.typeParams, p.Spellable
  types : ∀ t ∈ f.params ++ f.result.toList, t.Spellable
  throws : ∀ t ∈ f.throws, t.IsReference ∧ t.Spellable

instance : DecidablePred Spellable := fun f => decidable_of_iff _ (spellable_iff f).symm

end MethodForm

namespace Signature

theorem many_marked {mark : Char} {read : List Char → Read JType} {ts : List JType} {r : List Char}
    (hread : ∀ s, read (mark :: s) = referenceAt s) (hts : ∀ t ∈ ts, t.IsReference ∧ t.Spellable)
    (hr : read r = none) :
    many read ((ts.flatMap fun t => mark :: t.spell) ++ r) = (ts, r) := by
  have hrow : ∀ t ∈ ts, ∀ s, read ((mark :: t.spell) ++ s) = some (id t, s) := by
    intro t ht s
    rw [List.cons_append, hread]
    exact referenceAt_spell (hts t ht).1 (hts t ht).2 s
  have hmany := many_row (fun t _ => List.cons_ne_nil mark t.spell) hrow hr
  rwa [List.map_id] at hmany

theorem readBound_eq_none {cs : List Char} (h : cs.head? ≠ some ':') : readBound cs = none := by
  rw [readBound]
  rintro rest rfl
  exact h rfl

section Names

variable {p q : ParamForm} {ps : List ParamForm} {after cs : List Char}

theorem spellUpTo_cons (p : ParamForm) (ps : List ParamForm) (after : List Char) :
    ParamForm.spellUpTo (p :: ps) after = p.spell ++ ParamForm.spellUpTo ps after := by
  rw [ParamForm.spellUpTo, List.flatMap_cons, List.append_assoc, ParamForm.spellUpTo]

theorem spellUpTo_name (p : ParamForm) (ps : List ParamForm) (after : List Char) :
    ParamForm.spellUpTo (p :: ps) after =
      p.name.toList ++ ':' :: (p.spellBounds ++ ParamForm.spellUpTo ps after) := by
  rw [spellUpTo_cons, ParamForm.spell, List.append_assoc, List.cons_append]

theorem exists_head (hp : p.Spellable) :
    ∃ (w : Ident) (c : Char) (cs : List Char), p.name.toList = w.chars ∧ w.chars = c :: cs := by
  obtain ⟨w, hw⟩ := hp.name
  obtain ⟨c, cs, hcs⟩ := List.exists_cons_of_ne_nil w.nonempty
  exact ⟨w, c, cs, by rw [← hw, w.toList_text], hcs⟩

theorem head?_spellUpTo (hp : p.Spellable) (ps : List ParamForm) (after : List Char) :
    (ParamForm.spellUpTo (p :: ps) after).head? = p.name.toList.head? := by
  obtain ⟨w, c, cs, hname, hcs⟩ := exists_head hp
  rw [spellUpTo_name, hname, hcs]
  rfl

theorem head?_spellUpTo_ne (hps : ∀ p ∈ ps, p.Spellable) (after : List Char) :
    (ParamForm.spellUpTo ps after).head? ≠ some ':' := by
  cases ps with
  | nil => simp [ParamForm.spellUpTo]
  | cons p ps =>
    have hp := hps p List.mem_cons_self
    obtain ⟨w, c, cs, hname, hcs⟩ := exists_head hp
    rw [head?_spellUpTo hp, hname, hcs]
    intro hc
    obtain rfl : c = ':' := by simpa using hc
    exact w.free ':' (by simp [hcs]) (by decide)

/-- Where the next name does not begin with `L`, or no semicolon follows, no bound is read. -/
theorem referenceAt_spellUpTo (hps : ∀ p ∈ ps, p.Spellable)
    (h : ¬ ((ParamForm.spellUpTo ps after).head? = some 'L' ∧
      ';' ∈ ParamForm.spellUpTo ps after)) :
    referenceAt (ParamForm.spellUpTo ps after) = none := by
  rw [Option.eq_none_iff_forall_not_mem]
  rintro ⟨t, rest⟩ hread
  obtain ⟨tree, htree, -⟩ := referenceAt_iff.mp hread
  cases tree with
  | named head args inner =>
    rw [htree, RefTree.chars] at h
    exact h (by simp)
  | var v =>
    cases ps with
    | nil => exact (RefTree.var v).not_after '>' (by decide) rest after htree.symm
    | cons p ps =>
      -- The name and the variable after its letter end at different stops.
      obtain ⟨w, -, -, hname, -⟩ := exists_head (hps p List.mem_cons_self)
      let v' : Ident := ⟨'T' :: v.chars, List.cons_ne_nil _ _, by
        intro c hc
        rcases List.mem_cons.mp hc with rfl | hc
        · decide
        · exact v.free c hc⟩
      have hsame : w.chars ++ ':' :: (p.spellBounds ++ ParamForm.spellUpTo ps after) =
          v'.chars ++ ';' :: rest := by
        rw [← hname, ← spellUpTo_name, htree]
        simp [RefTree.chars, v']
      obtain ⟨-, hstop⟩ := Word.unique (by simp) (by simp) hsame
      simp at hstop
  | array element =>
    cases ps with
    | nil => exact (RefTree.array element).not_after '>' (by decide) rest after htree.symm
    | cons p ps =>
      obtain ⟨w, c, cs, hname, hcs⟩ := exists_head (hps p List.mem_cons_self)
      rw [spellUpTo_name, hname, hcs, RefTree.chars] at htree
      obtain ⟨rfl, -⟩ := List.cons.inj htree
      exact w.free '[' (by simp [hcs]) (by decide)

end Names

section Swallowed

/-- A text that a class name may run through. -/
def Plain (cs : List Char) : Prop := ∀ c ∈ cs, c ∉ ['<', '.', ';']

/-- A class type ends here, wherever its name began. -/
def EndsClass (cs : List Char) : Prop :=
  ∃ name args rest, Plain name ∧ cs = name ++ (argsPart args ++ ';' :: rest)

/-- Either no character ends a class name or the first one that does leads to the end of a class
type. -/
def Tame (cs : List Char) : Prop := Plain cs ∨ EndsClass cs

variable {cs xs : List Char}

theorem Plain.cons {c : Char} (hc : c ∉ ['<', '.', ';']) (h : Plain cs) : Plain (c :: cs) := by
  intro d hd
  rcases List.mem_cons.mp hd with rfl | hd
  · exact hc
  · exact h d hd

theorem Plain.append (hx : Plain xs) (h : Plain cs) : Plain (xs ++ cs) := by
  intro c hc
  rcases List.mem_append.mp hc with hc | hc
  · exact hx c hc
  · exact h c hc

theorem plain_ident (w : Ident) : Plain w.chars := by
  intro c hc hstop
  exact w.free c hc (ident_stop (by simpa using hstop))

theorem Tame.append (hx : Plain xs) (h : Tame cs) : Tame (xs ++ cs) := by
  rcases h with hplain | ⟨name, args, rest, hname, rfl⟩
  · exact .inl (hx.append hplain)
  · exact .inr ⟨xs ++ name, args, rest, hx.append hname, by rw [List.append_assoc]⟩

theorem Tame.cons {c : Char} (hc : c ∉ ['<', '.', ';']) (h : Tame cs) : Tame (c :: cs) := by
  have hplain : Plain [c] := Plain.cons hc (by simp [Plain])
  exact Tame.append hplain h

theorem Tame.endsClass (h : Tame cs) (hmem : ';' ∈ cs) : EndsClass cs := by
  rcases h with hplain | hends
  · exact absurd (by simp) (hplain ';' hmem)
  · exact hends

theorem plain_brackets (d : Nat) : Plain (List.replicate d '[') := by
  intro c hc
  rw [List.eq_of_mem_replicate hc]
  decide

theorem tame_spell {t : JType} (ht : t.Spellable) (h : Tame cs) : Tame (t.spell ++ cs) := by
  cases t with
  | prim p d =>
    have hletter : Plain [p.letter] := by
      cases p <;> simp [Plain, Primitive.letter]
    rw [JType.spell]
    exact Tame.append ((plain_brackets d).append hletter) h
  | named n as d =>
    rw [JType.Spellable] at ht
    obtain ⟨⟨w, rfl⟩, has, -⟩ := ht
    obtain ⟨trees, hchars, hvalues⟩ := exists_args as has
    refine .inr ⟨List.replicate d '[' ++ 'L' :: w.chars, trees, cs, ?_, ?_⟩
    · exact (plain_brackets d).append (Plain.cons (by decide) w.free)
    · rw [JType.spell, argsPart_eq_spellBracketed hchars hvalues, w.toList_text]
      simp
  | var v d =>
    rw [JType.Spellable] at ht
    obtain ⟨⟨w, rfl⟩, -⟩ := ht
    refine .inr ⟨List.replicate d '[' ++ 'T' :: w.chars, [], cs, ?_, ?_⟩
    · exact (plain_brackets d).append ((plain_ident w).cons (by decide))
    · rw [JType.spell, argsPart, w.toList_text]
      simp

theorem tame_row {α : Type} {text : α → List Char} {l : List α}
    (hl : ∀ a ∈ l, ∀ cs, Tame cs → Tame (text a ++ cs)) (h : Tame cs) :
    Tame (l.flatMap text ++ cs) := by
  induction l with
  | nil => exact h
  | cons a l ih =>
    rw [List.flatMap_cons, List.append_assoc]
    exact hl a List.mem_cons_self _ (ih fun b hb => hl b (List.mem_cons_of_mem _ hb))

theorem tame_bounds {p : ParamForm} (hp : p.Spellable) (h : Tame cs) :
    Tame (p.spellBounds ++ cs) := by
  have hspell : ∀ t ∈ p.bounds, ∀ cs, Tame cs → Tame (t.spell ++ cs) :=
    fun t ht cs hcs => tame_spell (hp.bounds t ht).2 hcs
  have hinterfaces : Tame ((p.interfaceBounds.flatMap fun t => ':' :: t.spell) ++ cs) :=
    tame_row (fun t ht cs hcs => (hspell t (List.mem_append_right _ ht) cs hcs).cons (by decide)) h
  rw [ParamForm.spellBounds, List.append_assoc]
  exact tame_row (fun t ht => hspell t (List.mem_append_left _ ht)) hinterfaces

theorem tame_spellUpTo {ps : List ParamForm} (hps : ∀ p ∈ ps, p.Spellable) (h : Tame cs) :
    Tame (ParamForm.spellUpTo ps cs) := by
  refine tame_row (fun p hp cs hcs => ?_) (h.cons (by decide))
  obtain ⟨w, -, -, hname, -⟩ := exists_head (hps p hp)
  rw [ParamForm.spell, hname, List.append_assoc]
  exact Tame.append (plain_ident w) ((tame_bounds (hps p hp) hcs).cons (by decide))

/-- A name that begins with `L` is read as a class, colon and all. -/
theorem exists_referenceAt {ps : List ParamForm} {after : List Char}
    (hps : ∀ p ∈ ps, p.Spellable) (hafter : Tame after)
    (hfirst : (ParamForm.spellUpTo ps after).head? = some 'L')
    (hmem : ';' ∈ ParamForm.spellUpTo ps after) :
    ∃ t rest, referenceAt (ParamForm.spellUpTo ps after) = some (t, rest) ∧ t ≠ .object := by
  cases ps with
  | nil => simp [ParamForm.spellUpTo] at hfirst
  | cons p ps =>
    have hp := hps p List.mem_cons_self
    obtain ⟨w, c, cs, hname, hcs⟩ := exists_head hp
    rw [head?_spellUpTo hp, hname, hcs] at hfirst
    obtain rfl : c = 'L' := by simpa using hfirst
    have hplain : Plain cs := fun d hd => plain_ident w d (by simp [hcs, hd])
    rw [spellUpTo_name, hname] at hmem ⊢
    have htail : ';' ∈ p.spellBounds ++ ParamForm.spellUpTo ps after := by
      rcases List.mem_append.mp hmem with hin | hin
      · exact absurd (by simp) (plain_ident w ';' hin)
      · simpa using hin
    have htame : Tame (p.spellBounds ++ ParamForm.spellUpTo ps after) :=
      tame_bounds hp (tame_spellUpTo (fun q hq => hps q (List.mem_cons_of_mem _ hq)) hafter)
    obtain ⟨more, args, rest, hmore, heq⟩ := htame.endsClass htail
    let head : Head := ⟨cs ++ ':' :: more, by simp, hplain.append (hmore.cons (by decide))⟩
    refine ⟨(RefTree.named head args []).value, rest, referenceAt_iff.mpr ⟨_, ?_, rfl⟩, ?_⟩
    · rw [heq, hcs, RefTree.chars_class, head.toList_text]
      simp [head]
    · -- No colon stands in the name of `Object`.
      rw [RefTree.value_class]
      intro hobject
      have hnames : head.text = Name.objectClass := (JType.named.inj hobject).1
      have hcolon : ':' ∈ Name.objectClass.toList := by
        rw [← hnames, head.toList_text]
        simp [head]
      exact absurd hcolon (by decide)

end Swallowed

section Params

variable {p : ParamForm} {ps : List ParamForm} {cs rest after : List Char} {t : JType}
  {ts : List JType}

theorem readParam_bound (w : Ident) (h : referenceAt cs = some (t, rest))
    (hmany : many readBound rest = (ts, after)) :
    readParam (w.text.toList ++ ':' :: cs) = some (⟨w.text, t :: ts⟩, after) := by
  have hrun := readRun_word isIdentChar_iff w (c := ':') (by simp) cs
  rw [w.toList_text, readParam, hrun]
  simp only [h, hmany]
  rfl

theorem readParam_unbound (w : Ident) (h : referenceAt cs = none)
    (hmany : many readBound cs = (ts, after)) :
    readParam (w.text.toList ++ ':' :: cs) =
      some (⟨w.text, if ts.isEmpty then [JType.object] else ts⟩, after) := by
  have hrun := readRun_word isIdentChar_iff w (c := ':') (by simp) cs
  rw [w.toList_text, readParam, hrun]
  simp only [h, hmany, List.nil_append]
  rfl

theorem readParam_spell (hp : p.Spellable) (hcs : cs.head? ≠ some ':')
    (hbare : p.bounds = [] → referenceAt cs = none) :
    readParam (p.spell ++ cs) = some (p.value, cs) := by
  obtain ⟨name, classBound, interfaceBounds⟩ := p
  obtain ⟨⟨w, rfl⟩, hbounds⟩ := hp
  have hmany : many readBound ((interfaceBounds.flatMap fun t => ':' :: t.spell) ++ cs) =
      (interfaceBounds, cs) :=
    many_marked (fun _ => rfl) (fun t ht => hbounds t (List.mem_append_right _ ht))
      (readBound_eq_none hcs)
  rw [ParamForm.spell, ParamForm.spellBounds, List.append_assoc, List.cons_append,
    List.append_assoc]
  cases classBound with
  | some t =>
    have ht := hbounds t (List.mem_append_left _ (by simp))
    have hclass := referenceAt_spell ht.1 ht.2
      ((interfaceBounds.flatMap fun t => ':' :: t.spell) ++ cs)
    simp only [Option.toList_some, List.flatMap_singleton]
    rw [readParam_bound w hclass hmany]
    rfl
  | none =>
    have hclass : referenceAt ((interfaceBounds.flatMap fun t => ':' :: t.spell) ++ cs) = none := by
      cases interfaceBounds with
      | nil => exact hbare rfl
      | cons t ts => rfl
    simp only [Option.toList_none, List.flatMap_nil, List.nil_append]
    rw [readParam_unbound w hclass hmany]
    rfl

theorem readParam_swallow (hp : p.Spellable) (hbare : p.bounds = [])
    (h : referenceAt cs = some (t, rest)) :
    ∃ v after, readParam (p.spell ++ cs) = some (v, after) ∧ t ∈ v.bounds := by
  obtain ⟨name, classBound, interfaceBounds⟩ := p
  obtain ⟨⟨w, rfl⟩, -⟩ := hp
  obtain ⟨hnone, rfl⟩ := List.append_eq_nil_iff.mp hbare
  obtain rfl : classBound = none := Option.toList_eq_nil_iff.mp hnone
  refine ⟨⟨w.text, t :: (many readBound rest).1⟩, (many readBound rest).2, ?_, List.mem_cons_self⟩
  rw [ParamForm.spell, List.append_assoc]
  exact readParam_bound w h rfl

open ParamForm

theorem readParam_step (hp : p.Spellable) (hps : ∀ q ∈ ps, q.Spellable)
    (h : ¬ p.Swallows (spellUpTo ps after)) :
    readParam (p.spell ++ spellUpTo ps after) = some (p.value, spellUpTo ps after) :=
  readParam_spell hp (head?_spellUpTo_ne hps after) fun hbare =>
    referenceAt_spellUpTo hps fun htaken => h ⟨hbare, htaken⟩

theorem readParam_ne_of_swallows (hp : p.Spellable) (hps : ∀ q ∈ ps, q.Spellable)
    (hafter : Tame after) (h : p.Swallows (spellUpTo ps after)) :
    ∃ v rest, readParam (p.spell ++ spellUpTo ps after) = some (v, rest) ∧ v ≠ p.value := by
  obtain ⟨hbare, hhead, hmem⟩ := h
  obtain ⟨t, rest, hclass, hobject⟩ := exists_referenceAt hps hafter hhead hmem
  obtain ⟨v, rest', hread, hbound⟩ := readParam_swallow hp hbare hclass
  refine ⟨v, rest', hread, ?_⟩
  rintro rfl
  rw [value, hbare] at hbound
  exact hobject (List.mem_singleton.mp hbound)

theorem confused_nil : ¬ Confused [] after := by
  rintro ⟨last, hexposed, -⟩
  cases hexposed

theorem confused_cons (hps : ∀ q ∈ ps, q.Spellable) :
    Confused (p :: ps) after ↔ p.Swallows (spellUpTo ps after) ∨ Confused ps after := by
  constructor
  · rintro ⟨last, hexposed, hmem⟩
    cases hexposed with
    | @here _ q later hbare hfirst =>
      exact .inl ⟨hbare, by rwa [head?_spellUpTo (hps q List.mem_cons_self)], hmem⟩
    | later h => exact .inr ⟨last, h, hmem⟩
  · rintro (⟨hbare, hfirst, hmem⟩ | ⟨last, hexposed, hmem⟩)
    · cases ps with
      | nil => simp [spellUpTo] at hfirst
      | cons q later =>
        rw [head?_spellUpTo (hps q List.mem_cons_self)] at hfirst
        exact ⟨q :: later, .here hbare hfirst, hmem⟩
    · exact ⟨last, hexposed.later, hmem⟩

theorem readMany_params (hps : ∀ p ∈ ps, p.Spellable) (h : ¬ Confused ps after) {fuel : Nat}
    (hfuel : ps.length ≤ fuel) :
    readMany readParam fuel (spellUpTo ps after) = (ps.map value, '>' :: after) := by
  induction ps generalizing fuel with
  | nil => cases fuel <;> rfl
  | cons p ps ih =>
    have hlater : ∀ q ∈ ps, q.Spellable := fun q hq => hps q (List.mem_cons_of_mem _ hq)
    rw [confused_cons hlater, not_or] at h
    cases fuel with
    | zero => simp at hfuel
    | succ fuel =>
      have hread := readParam_step (hps p List.mem_cons_self) hlater h.1
      have hmore := ih hlater h.2 (Nat.le_of_succ_le_succ hfuel)
      rw [spellUpTo_cons, readMany, hread]
      simp only [hmore, List.map_cons]

theorem not_confused_of_readMany (hps : ∀ p ∈ ps, p.Spellable) (hafter : Tame after) {fuel : Nat}
    (h : (readMany readParam fuel (spellUpTo ps after)).1 = ps.map value) :
    ¬ Confused ps after := by
  induction ps generalizing fuel with
  | nil => exact confused_nil
  | cons p ps ih =>
    have hp := hps p List.mem_cons_self
    have hlater : ∀ q ∈ ps, q.Spellable := fun q hq => hps q (List.mem_cons_of_mem _ hq)
    rw [confused_cons hlater, not_or]
    cases fuel with
    | zero => simp [readMany] at h
    | succ fuel =>
      rw [spellUpTo_cons, readMany] at h
      by_cases hswallows : p.Swallows (spellUpTo ps after)
      · obtain ⟨v, rest, hread, hne⟩ := readParam_ne_of_swallows hp hlater hafter hswallows
        rw [hread] at h
        exact absurd (List.cons.inj h).1 hne
      · rw [readParam_step hp hlater hswallows] at h
        exact ⟨hswallows, ih hlater (List.cons.inj h).2⟩

theorem readParams_spellBefore (hps : ∀ p ∈ ps, p.Spellable) (h : ¬ Confused ps after)
    (hafter : after.head? ≠ some '<') :
    readParams (spellBefore ps after) = (ps.map value, after) := by
  cases ps with
  | nil =>
    rw [spellBefore, readParams.eq_def, List.isEmpty_nil, if_pos rfl]
    split
    · exact absurd List.head?_cons hafter
    · rfl
  | cons p ps =>
    have hlength : (p :: ps).length ≤ (spellUpTo (p :: ps) after).length := by
      have hle : (p :: ps).length ≤ ((p :: ps).flatMap ParamForm.spell).length :=
        length_le_flatMap fun q _ => by simp [ParamForm.spell]
      rw [spellUpTo, List.length_append]
      omega
    have hmany := readMany_params hps h hlength
    rw [spellBefore, readParams.eq_def]
    simp only [List.isEmpty_cons, Bool.false_eq_true, if_false, many, hmany, List.map_cons]

theorem not_confused_of_readParams (hps : ∀ p ∈ ps, p.Spellable) (hafter : Tame after)
    (h : (readParams (spellBefore ps after)).1 = ps.map value) : ¬ Confused ps after := by
  cases ps with
  | nil => exact confused_nil
  | cons p ps =>
    rw [spellBefore, readParams.eq_def] at h
    simp only [List.isEmpty_cons, Bool.false_eq_true, if_false] at h
    split at h
    · next v vs rest hmany =>
      rw [← congrArg Prod.fst hmany] at h
      exact not_confused_of_readMany hps hafter h
    · simp at h

end Params

section Wholes

open ParamForm

theorem tame_classTypes {f : ClassForm} (hf : f.Spellable) : Tame f.spellTypes := by
  have hrow : Tame ((f.superclass :: f.interfaces).flatMap JType.spell ++ []) :=
    tame_row (fun t ht cs hcs => tame_spell (hf.types t ht).2 hcs) (.inl (by simp [Plain]))
  rwa [List.append_nil] at hrow

theorem spellTypes_class {f : ClassForm} (hf : f.Spellable) :
    ∃ cs, f.spellTypes = 'L' :: cs ∧ ';' ∈ cs := by
  obtain ⟨cs, hcs⟩ := JType.spell_class (hf.types f.superclass List.mem_cons_self).1
  exact ⟨_, by rw [ClassForm.spellTypes, List.flatMap_cons, hcs, List.cons_append], by simp⟩

/-- What follows the type parameters of a class is read back, whatever was read before. -/
theorem readClassSignature_types {f : ClassForm} (hf : f.Spellable) {cs : List Char}
    {params : List TypeParameter} (h : readParams cs = (params, f.spellTypes)) :
    readClassSignature cs = some (⟨params, f.superclass, f.interfaces⟩, []) := by
  have hfirst := hf.types f.superclass List.mem_cons_self
  have hsuper := classAt_spell hfirst.1 hfirst.2 (f.interfaces.flatMap JType.spell)
  have hinterfaces : ∀ t ∈ f.interfaces, ∀ s, classAt (t.spell ++ s) = some (id t, s) := by
    intro t ht s
    have hclass := hf.types t (List.mem_cons_of_mem _ ht)
    exact classAt_spell hclass.1 hclass.2 s
  have hmany := many_row (r := []) (fun t _ => t.spell_ne_nil) hinterfaces rfl
  rw [List.append_nil, List.map_id] at hmany
  rw [ClassForm.spellTypes, List.flatMap_cons] at h
  simp only [readClassSignature, h, hsuper, hmany]

theorem typeParams_of_readClass {cs rest : List Char} {s : ClassSignature}
    (h : readClassSignature cs = some (s, rest)) : (readParams cs).1 = s.typeParams := by
  simp only [readClassSignature] at h
  split at h
  · obtain ⟨rfl, -⟩ := Prod.mk.inj (Option.some.inj h)
    rfl
  · cases h

theorem parseClassSignature_text {f : ClassForm} (hf : f.Spellable) :
    parseClassSignature f.text = .ok f.value ↔ ¬ Confused f.typeParams f.spellTypes := by
  rw [parseClassSignature, whole_eq_ok_iff, ClassForm.text, String.toList_ofList]
  constructor
  · intro h
    exact not_confused_of_readParams hf.typeParams (tame_classTypes hf) (typeParams_of_readClass h)
  · intro h
    refine readClassSignature_types hf (readParams_spellBefore hf.typeParams h ?_)
    obtain ⟨cs, hcs, -⟩ := spellTypes_class hf
    simp [hcs]

theorem confused_class {f : ClassForm} (hf : f.Spellable) :
    Confused f.typeParams f.spellTypes ↔ ∃ last, Exposed f.typeParams last := by
  obtain ⟨cs, hcs, hmem⟩ := spellTypes_class hf
  have hend : ∀ last, ';' ∈ spellUpTo last f.spellTypes := by
    intro last
    rw [spellUpTo, hcs]
    simp [hmem]
  simp only [Confused, hend, and_true]

theorem tame_methodTypes {f : MethodForm} (hf : f.Spellable) : Tame f.spellTypes := by
  have hthrows : Tame ((f.throws.flatMap fun t => '^' :: t.spell) ++ []) :=
    tame_row (fun t ht cs hcs => (tame_spell (hf.throws t ht).2 hcs).cons (by decide))
      (.inl (by simp [Plain]))
  rw [List.append_nil] at hthrows
  have hresult : Tame (f.result.elim ['V'] JType.spell ++
      f.throws.flatMap fun t => '^' :: t.spell) := by
    cases hr : f.result with
    | none => exact hthrows.cons (by decide)
    | some t => exact tame_spell (hf.types t (by simp [hr])) hthrows
  have hparams := tame_row
    (fun t ht cs hcs => tame_spell (hf.types t (List.mem_append_left _ ht)) hcs)
    (hresult.cons (c := ')') (by decide))
  exact hparams.cons (by decide)

theorem readMethod_types {f : MethodForm} (hf : f.Spellable) :
    readMethod f.spellTypes = some (⟨f.params, f.result.getD (.prim .void 0)⟩,
      f.throws.flatMap fun t => '^' :: t.spell) := by
  have hparams : ∀ t ∈ f.params, ∀ s, typeAt (t.spell ++ s) = some (id t, s) :=
    fun t ht => typeAt_spell (hf.types t (List.mem_append_left _ ht))
  have hmany := many_row (fun t _ => t.spell_ne_nil) hparams
    (typeAt_closing (f.result.elim ['V'] JType.spell ++ f.throws.flatMap fun t => '^' :: t.spell))
  have hresult : ∀ s, readResult (f.result.elim ['V'] JType.spell ++ s) =
      some (f.result.getD (.prim .void 0), s) := by
    intro s
    cases hr : f.result with
    | none => rfl
    | some t =>
      obtain ⟨tree, hchars, hvalue⟩ := exists_type t (hf.types t (by simp [hr]))
      exact readResult_iff.mpr ⟨some tree, congrArg (· ++ s) hchars.symm, hvalue⟩
  rw [List.map_id] at hmany
  rw [MethodForm.spellTypes, readMethod]
  simp only [hmany, hresult, Option.map_some]

theorem readMethodSignature_types {f : MethodForm} (hf : f.Spellable) {cs : List Char}
    {params : List TypeParameter} (h : readParams cs = (params, f.spellTypes)) :
    readMethodSignature cs =
      some (⟨params, f.params, f.result.getD (.prim .void 0), f.throws⟩, []) := by
  have hmethod := readMethod_types hf
  have hthrows : many readThrown ((f.throws.flatMap fun t => '^' :: t.spell) ++ []) =
      (f.throws, []) := many_marked (fun _ => rfl) hf.throws rfl
  rw [List.append_nil] at hthrows
  simp only [readMethodSignature, h, hmethod, hthrows]

theorem typeParams_of_readMethod {cs rest : List Char} {s : MethodSignature}
    (h : readMethodSignature cs = some (s, rest)) : (readParams cs).1 = s.typeParams := by
  simp only [readMethodSignature] at h
  split at h
  · obtain ⟨rfl, -⟩ := Prod.mk.inj (Option.some.inj h)
    rfl
  · cases h

theorem parseMethodSignature_text {f : MethodForm} (hf : f.Spellable) :
    parseMethodSignature f.text = .ok f.value ↔ ¬ Confused f.typeParams f.spellTypes := by
  rw [parseMethodSignature, whole_eq_ok_iff, MethodForm.text, String.toList_ofList]
  constructor
  · intro h
    exact not_confused_of_readParams hf.typeParams (tame_methodTypes hf)
      (typeParams_of_readMethod h)
  · intro h
    exact readMethodSignature_types hf
      (readParams_spellBefore hf.typeParams h (by simp [MethodForm.spellTypes]))

/-- A class signature is read back exactly if no parameter without bounds stands right before one
whose name begins with `L`. In a method signature such a pair does no harm where no semicolon
follows. -/
theorem signatures_read_back {c : ClassForm} {m : MethodForm} (hc : c.Spellable)
    (hm : m.Spellable) :
    (parseClassSignature c.text = .ok c.value ↔ ∀ last, ¬ Exposed c.typeParams last) ∧
      (parseMethodSignature m.text = .ok m.value ↔
        ∀ last, Exposed m.typeParams last → ';' ∉ spellUpTo last m.spellTypes) := by
  constructor
  · rw [parseClassSignature_text hc, confused_class hc, not_exists]
  · rw [parseMethodSignature_text hm, Confused]
    simp only [not_exists, not_and]

/-- The signature `<A:T:La/B<-[TA;*>;:La/C;L::TT;>Lp/S<[[Lq/R;>;Li/I;`. -/
def boundedForm : ClassForm where
  typeParams :=
    [⟨"A", none, []⟩,
      ⟨"T", some (.named "a/B" [.lower (.var "A" 1), .wildcard] 0), [.named "a/C" [] 0]⟩,
      ⟨"L", none, [.var "T" 0]⟩]
  superclass := .named "p/S" [.exact (.named "q/R" [] 2)] 0
  interfaces := [.named "i/I" [] 0]

/-- The signature `<A:Lx:>([I)V`. -/
def bareForm : MethodForm where
  typeParams := [⟨"A", none, []⟩, ⟨"Lx", none, []⟩]
  params := [.prim .int 1]
  result := none
  throws := []

theorem forms_read_back :
    (boundedForm.Spellable ∧ parseClassSignature boundedForm.text = .ok boundedForm.value) ∧
      bareForm.Spellable ∧ Exposed bareForm.typeParams [⟨"Lx", none, []⟩] ∧
        parseMethodSignature bareForm.text = .ok bareForm.value := by
  have hbounded : boundedForm.Spellable := by decide +kernel
  have hbare : bareForm.Spellable := by decide +kernel
  obtain ⟨hclass, hmethod⟩ := signatures_read_back hbounded hbare
  refine ⟨⟨hbounded, hclass.mpr ?_⟩, hbare, .here rfl (by decide), hmethod.mpr ?_⟩
  · -- `T` does not begin with `L`, and the parameter before `L` has bounds.
    rintro last (⟨-, hfirst⟩ | (⟨hbounds, -⟩ | (_ | ⟨⟨⟩⟩)))
    · exact absurd hfirst (by decide)
    · cases hbounds
  · rintro last (_ | (_ | ⟨⟨⟩⟩))
    decide +kernel

/-- The signature `<A:L:La/B;>Ljava/lang/Object;`. -/
def lostForm : ClassForm where
  typeParams := [⟨"A", none, []⟩, ⟨"L", some (.named "a/B" [] 0), []⟩]
  superclass := .object
  interfaces := []

theorem next_parameter_lost :
    lostForm.Spellable ∧ lostForm.text = "<A:L:La/B;>Ljava/lang/Object;" ∧
      lostForm.value.paramNames = ["A", "L"] ∧
        (parseClassSignature lostForm.text).toOption.map ClassSignature.paramNames =
          some ["A"] := by
  exact ⟨by decide +kernel, by decide +kernel, rfl, by decide +kernel⟩

end Wholes

end Signature

end ClassSketch
