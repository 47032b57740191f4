import ClassSketch.Proofs.Wording

/-! The texts of a class that a sketch of it may show, and what the parts of a sketch take from
them. -/

namespace ClassSketch

open Text (Within)

def RecordPart.texts (p : RecordPart) : List String :=
  p.name :: p.descriptor :: p.signature.toList

def FieldDecl.texts (f : FieldDecl) : List String :=
  f.name :: f.descriptor :: f.signature.toList ++ f.annotations

def MethodDecl.texts (m : MethodDecl) : List String :=
  m.name :: m.descriptor :: m.signature.toList ++ m.exceptions ++ m.parameterNames.getD [] ++
    m.annotationDefault.toList ++ m.annotations

def ModulePackage.texts (p : ModulePackage) : List String := p.package :: p.targets

def ModuleService.texts (s : ModuleService) : List String := s.service :: s.providers

def ModuleDecl.texts (m : ModuleDecl) : List String :=
  m.name :: m.requires.map (·.module) ++ m.exports.flatMap ModulePackage.texts ++
    m.opens.flatMap ModulePackage.texts ++ m.uses ++ m.provides.flatMap ModuleService.texts

def ClassDecl.texts (c : ClassDecl) : List String :=
  c.name :: c.superclass.toList ++ c.interfaces ++ c.signature.toList ++ c.annotations ++
    c.fields.flatMap FieldDecl.texts ++ c.methods.flatMap MethodDecl.texts ++
    (c.recordParts.getD []).flatMap RecordPart.texts ++ c.module.toList.flatMap ModuleDecl.texts

def ClassNode.texts (n : ClassNode) : List String :=
  n.name :: n.simpleName.toList ++ n.renamedFrom.toList ++ n.decl.texts

/-- All texts of a list are over the alphabet. -/
def Wording.Holds (w : Wording) (ss : List String) : Prop := ∀ s ∈ ss, Within w.letter s

/-- What the renderer gives besides bodies is fine. -/
structure Kit.Worded {σ : Type} (w : Wording) (k : Kit σ) : Prop where
  initializer : ∀ c f s, k.renderer.initializer c f = some s → w.good s
  parameterName : ∀ c m i s, k.renderer.parameterName c m i = some s → Within w.letter s

theorem Kit.worded_any {σ : Type} (k : Kit σ) : k.Worded Wording.any :=
  ⟨fun _ _ _ _ => trivial, fun _ _ _ _ _ _ _ => trivial⟩

section

variable {w : Wording}

theorem Wording.Holds.mono {ss ts : List String} (h : w.Holds ss) (hsub : ∀ s ∈ ts, s ∈ ss) :
    w.Holds ts :=
  fun s hs => h s (hsub s hs)

namespace ClassDecl

variable {c : ClassDecl}

theorem name_holds (h : w.Holds c.texts) : Within w.letter c.name := h _ (by simp [texts])

theorem superclass_holds (h : w.Holds c.texts) : ∀ s, c.superclass = some s → Within w.letter s :=
  fun s hs => h s (by simp [texts, hs])

theorem interfaces_holds (h : w.Holds c.texts) : ∀ s ∈ c.interfaces, Within w.letter s :=
  fun s hs => h s (by simp [texts, hs])

theorem signature_holds (h : w.Holds c.texts) : ∀ s, c.signature = some s → Within w.letter s :=
  fun s hs => h s (by simp [texts, hs])

theorem annotations_holds (h : w.Holds c.texts) : ∀ s ∈ c.annotations, Within w.letter s :=
  fun s hs => h s (by simp [texts, hs])

theorem field_holds (h : w.Holds c.texts) {f : FieldDecl} (hf : f ∈ c.fields) : w.Holds f.texts :=
  h.mono fun s hs => by
    simp only [texts, List.mem_append, List.mem_flatMap]
    exact .inl (.inl (.inl (.inr ⟨f, hf, hs⟩)))

theorem method_holds (h : w.Holds c.texts) {m : MethodDecl} (hm : m ∈ c.methods) :
    w.Holds m.texts :=
  h.mono fun s hs => by
    simp only [texts, List.mem_append, List.mem_flatMap]
    exact .inl (.inl (.inr ⟨m, hm, hs⟩))

theorem part_holds (h : w.Holds c.texts) {ps : List RecordPart} (hps : c.recordParts = some ps)
    {p : RecordPart} (hp : p ∈ ps) : w.Holds p.texts :=
  h.mono fun s hs => by
    simp only [texts, List.mem_append, List.mem_flatMap, hps]
    exact .inl (.inr ⟨p, hp, hs⟩)

theorem module_holds (h : w.Holds c.texts) {m : ModuleDecl} (hm : c.module = some m) :
    w.Holds m.texts :=
  h.mono fun s hs => by
    simp only [texts, List.mem_append, List.mem_flatMap, hm]
    exact .inr ⟨m, by simp, hs⟩

theorem readableSignature_worded (h : w.Holds c.texts) {s : ClassSignature}
    (hs : c.readableSignature? = some s) : s.Worded w := by
  rw [readableSignature?, parsedSignature?] at hs
  cases ht : c.signature with
  | none => simp [ht] at hs
  | some t =>
    cases hp : Signature.parseClassSignature t with
    | error e => simp [ht, hp, Except.toOption] at hs
    | ok s' =>
      have he : s' = s := by simpa [ht, hp, Except.toOption] using hs
      exact he ▸ Signature.worded_of_parseClassSignature (signature_holds h t ht) hp

end ClassDecl

theorem ClassNode.displayName_holds {n : ClassNode} (h : w.Holds n.texts) :
    Within w.letter n.displayName := by
  rw [ClassNode.displayName]
  cases hs : n.simpleName with
  | none => exact Name.within_lastSegment (h _ (by simp [ClassNode.texts]))
  | some s => exact h s (by simp [ClassNode.texts, hs])

theorem ClassNode.decl_holds {n : ClassNode} (h : w.Holds n.texts) : w.Holds n.decl.texts :=
  h.mono fun s hs => by simp [ClassNode.texts, hs]

theorem ClassNode.renamedFrom_holds {n : ClassNode} (h : w.Holds n.texts) :
    ∀ s, n.renamedFrom = some s → Within w.letter s :=
  fun s hs => h s (by simp [ClassNode.texts, hs])

theorem annotationText_holds {a : String} (h : Within w.letter a) :
    Within w.letter (annotationText a) := by
  rw [annotationText]
  split
  · exact h
  · exact Text.within_append.mpr ⟨w.fixed (by decide), h⟩

theorem worded_toOption {α ε : Type} {P : α → Prop} {e : Except ε α}
    (h : ∀ a, e = .ok a → P a) : ∀ a ∈ e.toOption, P a := by
  intro a ha
  cases e with
  | error => simp [Except.toOption] at ha
  | ok b => exact h a (by simpa [Except.toOption] using ha)

theorem FieldDecl.genericType_worded {f : FieldDecl} (h : w.Holds f.texts) {t : JType}
    (ht : f.genericType = .ok t) : t.Worded w := by
  rw [genericType] at ht
  split at ht
  · rename_i t' hs
    cases ht
    obtain ⟨s, hs, hp⟩ := Option.map_eq_some_iff.mp hs
    exact Signature.worded_of_parseFieldType (h s (by simp [texts, hs])) hp
  · exact Signature.worded_of_parseFieldType (h f.descriptor (by simp [texts])) ht

theorem FieldSketch.shownType_worded {f : FieldDecl} (h : w.Holds f.texts) (o : Options) :
    (shownType o f).Worded w := by
  have herased : ∀ t, f.erasedType = .ok t → t.Worded w := fun t ht =>
    Signature.worded_of_parseFieldType (h f.descriptor (by simp [FieldDecl.texts])) ht
  rw [shownType]
  generalize he : (if o.genericSignatures then f.genericType else f.erasedType) = e
  cases e with
  | error => exact JType.worded_object
  | ok t =>
    split at he
    · exact f.genericType_worded h he
    · exact herased t he

theorem FieldSketch.initialValue_good {σ : Type} {k : Kit σ} (hk : k.Worded w) (c : ClassDecl)
    (f : FieldDecl) (t : JType) : w.good (initialValue k c f t) := by
  have hdefault : w.good (defaultValue t) := by
    apply w.good_of_within
    rw [defaultValue.eq_def]
    split
    · rename_i p
      cases p <;> exact w.fixed (by decide)
    · exact w.fixed (by decide)
  rw [initialValue]
  cases hi : k.renderer.initializer c f with
  | some s => exact hk.initializer c f s hi
  | none =>
    rw [Option.none_or]
    split
    · cases f.constant with
      | none => exact hdefault
      | some v => exact w.good_literal _ v
    · exact hdefault

/-- What may be written as the value of a field, or as the arguments of a constant. -/
structure Kit.Values {σ : Type} (k : Kit σ) (fits : String → Prop) (c : ClassDecl) (f : FieldDecl) :
    Prop where
  arguments : ∀ s, k.renderer.initializer c f = some s → fits s
  value : ∀ t, fits (FieldSketch.initialValue k c f t)

theorem Kit.Worded.values {σ : Type} {k : Kit σ} (hk : k.Worded w) (c : ClassDecl) (f : FieldDecl) :
    k.Values w.good c f :=
  ⟨hk.initializer c f, FieldSketch.initialValue_good hk c f⟩

theorem Header.partType_worded {p : RecordPart} (h : w.Holds p.texts) (generic : Bool) :
    (partType generic p).Worded w := by
  have hsignature : ∀ t ∈ (if generic then
      p.signature.bind fun s => (Signature.parseFieldType s).toOption else none), t.Worded w := by
    intro t ht
    split at ht
    · obtain ⟨s, hs, ht⟩ := Option.bind_eq_some_iff.mp ht
      have hs : Within w.letter s := h s (by simp [RecordPart.texts, hs])
      exact worded_toOption (fun _ => Signature.worded_of_parseFieldType hs) t ht
    · cases ht
  have hdescriptor : ∀ t ∈ (Signature.parseFieldType p.descriptor).toOption, t.Worded w :=
    worded_toOption fun _ => Signature.worded_of_parseFieldType (h _ (by simp [RecordPart.texts]))
  rw [partType]
  cases hs : (if generic then p.signature.bind fun s => (Signature.parseFieldType s).toOption
      else none) with
  | some t => exact hsignature t hs
  | none =>
    cases hd : (Signature.parseFieldType p.descriptor).toOption with
    | some t => exact hdescriptor t hd
    | none => exact JType.worded_object

theorem Kit.parameterName_holds {σ : Type} {k : Kit σ} (hk : k.Worded w) (c : ClassDecl)
    {m : MethodDecl} (hm : w.Holds m.texts) (raw position : Nat) :
    Within w.letter (k.parameterName c m raw position) := by
  have hdeclared : ∀ s ∈ (if k.options.useParameterNames then
      ((m.parameterNames.getD [])[raw]?).filter fun n => !n.isEmpty else none),
      Within w.letter s := by
    intro s hs
    split at hs
    · have hget := (Option.filter_eq_some_iff.mp hs).1
      refine hm s ?_
      simp only [MethodDecl.texts, List.mem_append]
      exact .inl (.inl (.inr (List.mem_of_getElem? hget)))
    · cases hs
  rw [Kit.parameterName]
  generalize (if k.options.useParameterNames then
    ((m.parameterNames.getD [])[raw]?).filter fun n => !n.isEmpty else none) = declared at hdeclared
  cases declared with
  | some s => exact hdeclared s rfl
  | none =>
    rw [Option.none_or]
    cases hr : k.renderer.parameterName c m raw with
    | some s => exact hk.parameterName c m raw s hr
    | none =>
      refine Text.within_append.mpr ⟨w.fixed (by decide), ?_⟩
      exact w.within_toString ((position + 1 : Nat) : Int)

end

namespace MethodShape

variable {w : Wording} {σ : Type}

theorem mem_of_mem_shownParams {mask : List Bool} {ts : List JType} {t : JType}
    (h : t ∈ shownParams mask ts) : t ∈ ts := by
  fun_induction shownParams mask ts with
  | case1 mask s ts ih =>
    rcases List.mem_cons.mp h with rfl | h
    · exact List.mem_cons_self
    · exact List.mem_cons_of_mem _ (ih h)
  | case2 mask s ts ih => exact List.mem_cons_of_mem _ (ih h)
  | case3 => cases h

theorem descriptorOf_worded {m : MethodDecl} (h : w.Holds m.texts) : (descriptorOf m).Worded w := by
  rw [descriptorOf, MethodDecl.erasedType]
  cases hd : Signature.parseMethodDescriptor m.descriptor with
  | error => exact ⟨by simp [Except.toOption], JType.worded_prim _ _⟩
  | ok d =>
    exact Signature.worded_of_parseMethodDescriptor (h _ (by simp [MethodDecl.texts])) hd

theorem genericOf_worded {m : MethodDecl} (h : w.Holds m.texts) {o : Options}
    {s : MethodSignature} (hs : genericOf o m = some s) : s.Worded w := by
  rw [genericOf] at hs
  split at hs
  · obtain ⟨t, ht, hs⟩ := Option.bind_eq_some_iff.mp hs
    have ht : Within w.letter t := h t (by simp [MethodDecl.texts, ht])
    exact worded_toOption (fun _ => Signature.worded_of_parseMethodSignature ht) s hs
  · cases hs

/-- All types in the shape of a method are fine. -/
structure Worded (w : Wording) (s : MethodShape) : Prop where
  typeParams : ∀ p ∈ s.typeParams, p.Worded w
  params : ∀ t ∈ s.params, t.Worded w
  result : s.result.Worded w
  throws : ∀ t ∈ s.throws, t.Worded w

theorem ofMethod_worded (k : Kit σ) (n : ClassNode) {m : MethodDecl} (h : w.Holds m.texts) :
    (ofMethod k n m).Worded w := by
  have hd := descriptorOf_worded h
  have hexceptions : ∀ t ∈ m.exceptions.map JType.ofClass, t.Worded w := by
    intro t ht
    obtain ⟨s, hs, rfl⟩ := List.mem_map.mp ht
    exact JType.worded_ofClass (h s (by simp [MethodDecl.texts, hs]))
  have hshown : ∀ mask, ∀ t ∈ shownParams mask (descriptorOf m).params, t.Worded w :=
    fun mask t ht => hd.params t (mem_of_mem_shownParams ht)
  cases hg : genericOf k.options m with
  | none =>
    constructor <;> simp only [ofMethod, hg, Option.elim_none]
    · simp
    · exact hshown _
    · exact hd.result
    · exact hexceptions
  | some s =>
    have hs := genericOf_worded h hg
    constructor <;> simp only [ofMethod, hg, Option.elim_some]
    · exact hs.typeParams
    · split
      · exact hs.params
      · exact hshown _
    · exact hs.result
    · split
      · exact hexceptions
      · exact hs.throws

end MethodShape

end ClassSketch
