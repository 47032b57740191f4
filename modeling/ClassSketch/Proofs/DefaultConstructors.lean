import ClassSketch.Proofs.HiddenMethods
import ClassSketch.Proofs.LinePositions
import ClassSketch.Proofs.MethodLines

/-! Empty constructors that are left out because the compiler adds them by itself. The rule looks at
the declared exceptions and not at the lines before the head, so a constructor that is left out may
have been more than the one that comes back: annotations, a deprecation and exceptions that stand
in the signature alone go with it. -/

namespace ClassSketch

/-- What the rule for empty constructors looks at. -/
structure Visit.IsLone {σ : Type} (k : Kit σ) (v : Visit) : Prop where
  exceptions : v.method.exceptions = []
  params : (v.shape k).visible = []
  accessibility : v.method.access.accessibility = v.node.access.accessibility
  alone : v.node.decl.constructors = [v.method]
  plain : v.node.decl.isEnum = false

/-- The constructor that the compiler adds to a class without one. -/
structure Visit.IsDefault {σ : Type} (k : Kit σ) (v : Visit) : Prop extends v.IsLone k where
  annotations : v.method.annotations = []
  deprecated : v.method.deprecated = false
  throws : ∀ s, MethodShape.genericOf k.options v.method = some s → s.throws = []

theorem Visit.isDefault_iff {σ : Type} {k : Kit σ} {v : Visit} (h : v.IsLone k) :
    v.IsDefault k ↔ v.method.annotations = [] ∧ v.method.deprecated = false ∧
      ∀ s, MethodShape.genericOf k.options v.method = some s → s.throws = [] :=
  ⟨fun hd => ⟨hd.annotations, hd.deprecated, hd.throws⟩,
    fun hd => { h with annotations := hd.1, deprecated := hd.2.1, throws := hd.2.2 }⟩

/-- Exceptions come from the signature, and from the declared ones if it has none. -/
theorem Visit.throws_eq_nil_iff {σ : Type} {k : Kit σ} {v : Visit}
    (h : v.method.exceptions = []) : (v.shape k).throws = [] ↔
      ∀ s, MethodShape.genericOf k.options v.method = some s → s.throws = [] := by
  have hthrows : (v.shape k).throws =
      (MethodShape.genericOf k.options v.method).elim (v.method.exceptions.map JType.ofClass)
        fun s => if s.throws.isEmpty then v.method.exceptions.map JType.ofClass else s.throws := by
    rw [Visit.shape, MethodShape.ofMethod]
    cases MethodShape.genericOf k.options v.method <;> rfl
  rw [hthrows, h, List.map_nil]
  cases MethodShape.genericOf k.options v.method with
  | none => simp
  | some s => by_cases hs : s.throws = [] <;> simp [hs]

namespace MethodSketch

variable {σ : Type}

/-- The text that a run gets for the body of a method, if there is a body and it can be
rendered. -/
def givenText (k : Kit σ) (v : Visit) (b : Bench σ) : Option String :=
  if v.hasBody k then
    let lead := leadAndHead k v (Scoped.withScope b (b.draft.scope.enterMethod v.method.key))
    let site : BodySite := ⟨v.node.decl, v.method, v.level + 1, k.options.layout,
      lead.2.draft.scope.className.getD v.node.decl.name⟩
    (renderBody k site
      ⟨lead.2.shop, lead.2.draft.writeLine v.level (lead.1 ++ " \x7b")⟩).1.text
  else none

theorem outcome_sketchOne {k : Kit σ} {v : Visit} {b : Bench σ} {text : String}
    (h : givenText k v b = some text) :
    (sketchOne k v.node v.method v.level b).1 = fate k v (some text) := by
  rw [givenText] at h
  split at h
  · next hbody =>
    rw [sketchOne_apply, ← h]
    dsimp only
    rw [afterHead, if_pos hbody]
    exact outcome_sketchBody k v _
  · cases h

theorem isGeneratedMember_of_blank {text : String} (h : Text.isBlankText text = true)
    (c : ClassDecl) (m : MethodDecl) : isGeneratedMember c m text = false := by
  have htrim : ∀ line ∈ Text.lines text, Text.trim line = "" := by
    intro line hline
    have hblank : ∀ ch ∈ line.toList, Text.isBlank ch = true := fun ch hch =>
      List.all_eq_true.mp h ch (Text.mem_of_mem_lines hline hch).1
    rw [Text.trim, Text.trimChars, List.dropWhile_eq_nil_iff.mpr hblank]
    rfl
  have hlines : ((Text.lines text).map Text.trim).filter (fun l => !l.isEmpty) = [] := by
    simp only [List.filter_eq_nil_iff, List.forall_mem_map]
    intro line hline
    simp [htrim line hline]
  rw [isGeneratedMember, hlines]

theorem isHiddenWhenEmpty_iff (k : Kit σ) {v : Visit} (hm : v.method ∈ v.node.decl.methods)
    (hinit : v.method.isConstructor = true) (hkind : v.node.kind ≠ .anonymous) :
    isHiddenWhenEmpty k.options v.node v.method (v.shape k).visible.length = true ↔
      k.options.hideDefaultConstructor = true ∧ v.IsLone k := by
  have hstatic : v.method.isStaticInit = false := by
    rw [MethodDecl.isConstructor, beq_iff_eq] at hinit
    rw [MethodDecl.isStaticInit, hinit]
    rfl
  have hmem : v.method ∈ v.node.decl.constructors := List.mem_filter.mpr ⟨hm, hinit⟩
  have halone : v.node.decl.constructors.length = 1 ↔ v.node.decl.constructors = [v.method] := by
    constructor
    · intro hlength
      obtain ⟨m, hone⟩ := List.length_eq_one_iff.mp hlength
      rw [hone, List.mem_singleton] at hmem
      rw [hone, hmem]
    · intro hone
      rw [hone]
      rfl
  simp only [isHiddenWhenEmpty, hstatic, hinit, Bool.false_or, Bool.true_and, Bool.or_eq_true,
    beq_iff_eq, hkind, false_or, Bool.and_eq_true, List.isEmpty_iff, List.length_eq_zero_iff,
    Bool.not_eq_true', halone]
  constructor
  · rintro ⟨⟨⟨⟨⟨hwanted, hexceptions⟩, hparams⟩, hplain⟩, haccess⟩, hone⟩
    exact ⟨hwanted, hexceptions, hparams, haccess.symm, hone, hplain⟩
  · rintro ⟨hwanted, hexceptions, hparams, haccess, hone, hplain⟩
    exact ⟨⟨⟨⟨⟨hwanted, hexceptions⟩, hparams⟩, hplain⟩, haccess.symm⟩, hone⟩

/-- An empty constructor is left out if it is the only one, as accessible as its class, which is no
enum, and without parameters and declared exceptions. It is the one that the compiler adds just if
nothing but remarks stands before its head. -/
theorem elided_constructor_is_default_iff (k : Kit σ) {v : Visit}
    (hm : v.method ∈ v.node.decl.methods) (hinit : v.method.isConstructor = true)
    (hkind : v.node.kind ≠ .anonymous) {b : Bench σ} {text : String}
    (htext : givenText k v b = some text) (hblank : Text.isBlankText text = true) :
    ((sketchOne k v.node v.method v.level b).1 = .hidden ↔
        k.options.hideDefaultConstructor = true ∧ v.IsLone k) ∧
      ((sketchOne k v.node v.method v.level b).1 = .hidden →
        (v.IsDefault k ↔ v.method.annotations = [] ∧ v.method.deprecated = false ∧
          ∀ s, MethodShape.genericOf k.options v.method = some s → s.throws = []) ∧
        (v.IsDefault k ↔ ∀ c : Bench σ, (sketchLead v.method (v.shape k) v.level c).2.draft.line =
          c.draft.line + remarkCount v.method)) := by
  have hhidden : (sketchOne k v.node v.method v.level b).1 = .hidden ↔
      k.options.hideDefaultConstructor = true ∧ v.IsLone k := by
    rw [outcome_sketchOne htext, ← isHiddenWhenEmpty_iff k hm hinit hkind, fate, hblank,
      isGeneratedMember_of_blank hblank, Bool.true_and, Bool.and_false, if_neg Bool.false_ne_true]
    split
    · next hrule => exact iff_of_true rfl hrule
    · next hrule => exact iff_of_false (by decide) hrule
  refine ⟨hhidden, fun h => ?_⟩
  obtain ⟨-, hlone⟩ := hhidden.mp h
  have hdefault := Visit.isDefault_iff hlone
  refine ⟨hdefault, hdefault.trans ?_⟩
  rw [← Visit.throws_eq_nil_iff hlone.exceptions]
  simp only [line_sketchLead]
  constructor
  · rintro ⟨hannotations, hdeprecated, hthrows⟩ c
    simp [hannotations, hdeprecated, hthrows]
  · intro hlines
    have hnone := hlines b
    refine ⟨List.length_eq_zero_iff.mp (by omega), ?_, ?_⟩
    · by_contra hdeprecated
      simp [hdeprecated] at hnone
    · by_contra hthrows
      simp [hthrows] at hnone

section Vessels

def vesselKit : Kit Unit := ⟨{}, PreparedBodies.renderer {} Unit⟩

def vessel (name : String) (m : MethodDecl) : ClassDecl :=
  { ClassDecl.plain name ⟨17⟩ with methods := [m] }

def vesselVisit (name : String) (m : MethodDecl) : Visit := ⟨1, .ofDecl (vessel name m), m⟩

def vesselBench (name : String) (m : MethodDecl) : Bench Unit :=
  ⟨⟨⟨.ofList [vessel name m], []⟩, (), [], []⟩, .ofRoot name {}⟩

def vesselText (name : String) (m : MethodDecl) : Option String :=
  ((Session.start vesselKit (.ofList [vessel name m]) () .keep).write name).toOption.map (·.1.text)

def bareConstructor : MethodDecl := { name := "<init>", descriptor := "()V", access := ⟨1⟩ }

def annotated : MethodDecl := { bareConstructor with annotations := ["Inject"] }

def outdated : MethodDecl := { bareConstructor with deprecated := true }

def throwing : MethodDecl := { bareConstructor with signature := some "()V^Ljava/io/IOException;" }

theorem bare_constructor_elided :
    givenText vesselKit (vesselVisit "a/Box" bareConstructor)
        (vesselBench "a/Box" bareConstructor) = some "" ∧
      (sketchOne vesselKit (.ofDecl (vessel "a/Box" bareConstructor)) bareConstructor 1
        (vesselBench "a/Box" bareConstructor)).1 = .hidden ∧
      (vesselVisit "a/Box" bareConstructor).IsDefault vesselKit := by
  have hgiven : givenText vesselKit (vesselVisit "a/Box" bareConstructor)
      (vesselBench "a/Box" bareConstructor) = some "" := by
    decide +kernel
  have helided := elided_constructor_is_default_iff vesselKit
    (v := vesselVisit "a/Box" bareConstructor) List.mem_cons_self rfl (by decide) hgiven rfl
  have hhidden : (sketchOne vesselKit (.ofDecl (vessel "a/Box" bareConstructor)) bareConstructor 1
      (vesselBench "a/Box" bareConstructor)).1 = .hidden :=
    helided.1.mpr ⟨rfl, rfl, by decide +kernel, by decide, rfl, by decide⟩
  have hgeneric : MethodShape.genericOf vesselKit.options bareConstructor = none := rfl
  refine ⟨hgiven, hhidden, ((helided.2 hhidden).1).mpr ⟨rfl, rfl, fun s hs => ?_⟩⟩
  rw [vesselVisit, hgeneric] at hs
  cases hs

/-- With the constructors go an annotation, a deprecation and an exception that only the signature
names; of the last one the import is left. -/
theorem elided_constructors_had_more :
    ((sketchOne vesselKit (.ofDecl (vessel "a/Box" annotated)) annotated 1
          (vesselBench "a/Box" annotated)).1 = .hidden ∧
        ¬ (vesselVisit "a/Box" annotated).IsDefault vesselKit ∧
        vesselText "a/Box" annotated = some "package a\n\nclass Box \x7b\n\x7d\n") ∧
      ((sketchOne vesselKit (.ofDecl (vessel "a/Cup" outdated)) outdated 1
          (vesselBench "a/Cup" outdated)).1 = .hidden ∧
        ¬ (vesselVisit "a/Cup" outdated).IsDefault vesselKit ∧
        vesselText "a/Cup" outdated = some "package a\n\nclass Cup \x7b\n\x7d\n") ∧
      (sketchOne vesselKit (.ofDecl (vessel "a/Jar" throwing)) throwing 1
          (vesselBench "a/Jar" throwing)).1 = .hidden ∧
        ¬ (vesselVisit "a/Jar" throwing).IsDefault vesselKit ∧
        vesselText "a/Jar" throwing =
          some "package a\n\nimport java.io.IOException\n\nclass Jar \x7b\n\x7d\n" := by
  refine ⟨⟨by decide +kernel, fun h => ?_, by decide +kernel⟩,
    ⟨by decide +kernel, fun h => ?_, by decide +kernel⟩,
    by decide +kernel, fun h => ?_, by decide +kernel⟩
  · cases h.annotations
  · cases h.deprecated
  · have hthrows : ((MethodShape.genericOf vesselKit.options throwing).map
        (·.throws.length)) = some 1 := by
      decide +kernel
    obtain ⟨s, hs, hlength⟩ := Option.map_eq_some_iff.mp hthrows
    rw [h.throws s hs] at hlength
    cases hlength

end Vessels

end MethodSketch

end ClassSketch
