import ClassSketch.Proofs.Heads
import ClassSketch.Proofs.SketchParts

/-! The scope in which bodies are asked for. A renderer can keep a journal of the bodies it was
asked for, and the sketch does not notice. Here the parts of a sketch are run with and without such
a journal. Each part leaves the scope as it finds it, and only a method with a body writes to the
journal: one line, which names the class of the scope. -/

namespace ClassSketch

variable {σ α β : Type}

/-- The renderer, with a journal of the bodies that it was asked for. -/
def Renderer.journaled (r : Renderer σ) : Renderer (σ × List BodySite) where
  body site t m := ((r.body site t m.1).1, (r.body site t m.1).2, m.2 ++ [site])
  exitOffset := r.exitOffset
  initializer := r.initializer
  hidden := r.hidden
  parameterName := r.parameterName
  addedParameters := r.addedParameters
  callSites := r.callSites

def Kit.journaled (k : Kit σ) : Kit (σ × List BodySite) := ⟨k.options, k.renderer.journaled⟩

def Bench.journaled (b : Bench σ) (journal : List BodySite) : Bench (σ × List BodySite) :=
  ⟨⟨b.shop.genealogy, (b.shop.memory, journal), b.shop.warnings, b.shop.prepared⟩, b.draft⟩

/-- What a method asks for where `inside` is the current class: its body, if it has one. -/
def MethodSketch.sitesIn (k : Kit σ) (n : ClassNode) (m : MethodDecl) (level : Nat)
    (inside : Option String) : List BodySite :=
  if (MethodShape.ofMethod k n m).hasBody then
    [⟨n.decl, m, level + 1, k.options.layout, inside.getD n.decl.name⟩]
  else []

/-- In the class of the given name, the action leaves the scope as it finds it. With a journal the
second action does the same, and the sites are added to the journal. -/
def Asks (inside : Option String) (sites : List BodySite) (act : SketchM σ α)
    (act' : SketchM (σ × List BodySite) α) : Prop :=
  ∀ b journal, b.draft.scope.className = inside →
    (act b).2.draft.scope = b.draft.scope ∧
      act' (b.journaled journal) = ((act b).1, (act b).2.journaled (journal ++ sites))

namespace Asks

variable {inside : Option String} {sites more : List BodySite} {act : SketchM σ α}
  {act' : SketchM (σ × List BodySite) α} {f : α → SketchM σ β}
  {f' : α → SketchM (σ × List BodySite) β}

theorem scope_eq {b : Bench σ} (h : Asks b.draft.scope.className sites act act') :
    (act b).2.draft.scope = b.draft.scope :=
  (h b [] rfl).1

/-- For actions that ask for nothing. -/
theorem quiet (hscope : ∀ b, (act b).2.draft.scope = b.draft.scope)
    (hrun : ∀ b journal, act' (b.journaled journal) = ((act b).1, (act b).2.journaled journal)) :
    Asks inside [] act act' := by
  intro b journal _
  rw [List.append_nil]
  exact ⟨hscope b, hrun b journal⟩

theorem pure (x : α) : Asks inside [] (Pure.pure x : SketchM σ α) (Pure.pure x) :=
  quiet (fun _ => rfl) fun _ _ => rfl

theorem bind (h : Asks inside sites act act') (hf : ∀ x, Asks inside more (f x) (f' x)) :
    Asks inside (sites ++ more) (act >>= f) (act' >>= f') := by
  intro b journal hb
  obtain ⟨hscope, hrun⟩ := h b journal hb
  have hinside : (act b).2.draft.scope.className = inside := by rw [hscope, hb]
  obtain ⟨hscope', hrun'⟩ := hf (act b).1 (act b).2 (journal ++ sites) hinside
  rw [List.append_assoc] at hrun'
  refine ⟨hscope'.trans hscope, ?_⟩
  exact (congrArg (fun r => f' r.1 r.2) hrun).trans hrun'

/-- The first action asks for nothing. -/
theorem after (h : Asks inside [] act act') (hf : ∀ x, Asks inside sites (f x) (f' x)) :
    Asks inside sites (act >>= f) (act' >>= f') :=
  h.bind hf

/-- The second action asks for nothing. -/
theorem before (h : Asks inside sites act act') (hf : ∀ x, Asks inside [] (f x) (f' x)) :
    Asks inside sites (act >>= f) (act' >>= f') := by
  have hboth := h.bind hf
  rwa [List.append_nil] at hboth

theorem read {f : Bench σ → SketchM σ β} {f' : Bench (σ × List BodySite) → SketchM _ β}
    (h : ∀ b journal, b.draft.scope.className = inside →
      Asks inside sites (f b) (f' (b.journaled journal))) :
    Asks inside sites (MonadState.get >>= f) (MonadState.get >>= f') :=
  fun b journal hb => h b journal hb b journal hb

theorem ite {p : Prop} [Decidable p] {act₁ : SketchM σ α} {act₁' : SketchM (σ × List BodySite) α}
    (h : Asks inside sites act act') (h₁ : Asks inside sites act₁ act₁') :
    Asks inside sites (if p then act else act₁) (if p then act' else act₁') := by
  split
  · exact h
  · exact h₁

theorem edit {g : Draft → Draft} (hg : ∀ d, (g d).scope = d.scope) :
    Asks inside [] (SketchM.edit g : SketchM σ Unit) (SketchM.edit g) :=
  quiet (fun b => hg b.draft) fun _ _ => rfl

theorem editWhen (p : Bool) {g : Draft → Draft} (hg : ∀ d, (g d).scope = d.scope) :
    Asks inside [] (SketchM.editWhen p g : SketchM σ Unit) (SketchM.editWhen p g) := by
  cases p with
  | false => exact .pure ()
  | true => exact .edit hg

theorem inImports (a : StateM Imports α) :
    Asks inside [] (SketchM.inImports a : SketchM σ α) (SketchM.inImports a) :=
  quiet (fun _ => rfl) fun _ _ => rfl

theorem inGenealogy (a : StateM Genealogy α) :
    Asks inside [] (SketchM.inGenealogy a : SketchM σ α) (SketchM.inGenealogy a) :=
  quiet (fun _ => rfl) fun _ _ => rfl

theorem warn (x : Warning) : Asks inside [] (SketchM.warn x : SketchM σ Unit) (SketchM.warn x) :=
  quiet (fun _ => rfl) fun _ _ => rfl

/-- A method replaces only the method of the scope, so what goes on inside has to keep the class. -/
theorem inMethod (key : String) (h : Asks inside sites act act') :
    Asks inside sites (inScope (.ofMethod key) act) (inScope (.ofMethod key) act') := by
  intro b journal hb
  obtain ⟨hscope, hrun⟩ := h (Scoped.withScope b (b.draft.scope.enterMethod key)) journal hb
  have hback : (act (Scoped.withScope b (b.draft.scope.enterMethod key))).2.draft.scope.leave
      (.byMethod b.draft.scope.methodKey) = b.draft.scope := by
    rw [hscope]
    rfl
  refine ⟨hback, ?_⟩
  exact congrArg (fun r => (r.1, Scoped.withScope r.2
    (r.2.draft.scope.leave (.byMethod b.draft.scope.methodKey)))) hrun

/-- A class replaces the whole scope, so it does not matter where the class itself stands. -/
theorem inClass (name : String) (h : Asks (some name) sites act act') :
    Asks inside sites (inScope (.ofClass name) act) (inScope (.ofClass name) act') := by
  intro b journal _
  obtain ⟨_, hrun⟩ := h (Scoped.withScope b (b.draft.scope.enterClass name)) journal rfl
  refine ⟨rfl, ?_⟩
  exact congrArg (fun r => (r.1, Scoped.withScope r.2
    (r.2.draft.scope.leave (.byClass b.draft.scope.className b.draft.scope.methodKey)))) hrun

section Texts

theorem typeText (t : JType) :
    Asks inside [] (SketchM.typeText t : SketchM σ String) (SketchM.typeText t) := by
  rw [SketchM.typeText_eq_inImports, SketchM.typeText_eq_inImports]
  exact inImports _

theorem typeTexts (ts : List JType) :
    Asks inside [] (SketchM.typeTexts ts : SketchM σ (List String)) (SketchM.typeTexts ts) := by
  rw [SketchM.typeTexts_eq_inImports, SketchM.typeTexts_eq_inImports]
  exact inImports _

theorem typeParameters (ps : List TypeParameter) :
    Asks inside [] (SketchM.typeParameters ps : SketchM σ String) (SketchM.typeParameters ps) := by
  have htexts : Asks inside [] (SketchM.typeParameterTexts ps : SketchM σ (List String))
      (SketchM.typeParameterTexts ps) := by
    induction ps with
    | nil => exact .pure _
    | cons p ps ih => exact (typeTexts _).after fun _ => ih.after fun _ => .pure _
  exact htexts.after fun _ => .pure _

theorem scope_leadLines (deprecated : Bool) (annotations remarks : List String) (level : Nat)
    (d : Draft) : (leadLines deprecated annotations remarks level d).scope = d.scope := by
  rw [leadLines_eq_writeLines, Draft.writeLines_eq]

theorem leadLines (deprecated : Bool) (annotations remarks : List String) (level : Nat) :
    Asks inside [] (SketchM.edit (leadLines deprecated annotations remarks level) : SketchM σ Unit)
      (SketchM.edit (ClassSketch.leadLines deprecated annotations remarks level)) :=
  .edit (scope_leadLines deprecated annotations remarks level)

end Texts

section Heads

variable (k : Kit σ) (n : ClassNode)

theorem partTexts (generic : Bool) (ps : List RecordPart) :
    Asks inside [] (Header.partTexts generic ps : SketchM σ (List String))
      (Header.partTexts generic ps) := by
  induction ps with
  | nil => exact .pure _
  | cons p ps ih => exact (typeText _).after fun _ => ih.after fun _ => .pure _

theorem supertypeTexts (c : ClassDecl) (superclass : Option JType) (interfaces : List JType) :
    Asks inside [] (Header.supertypeTexts c superclass interfaces : SketchM σ (List String))
      (Header.supertypeTexts c superclass interfaces) := by
  rw [Header.supertypeTexts, Header.supertypeTexts]
  cases superclass.filter fun t => !Header.isImplied t with
  | none => exact (typeTexts _).after fun _ => .pure _
  | some t => exact (typeText t).after fun _ => (typeTexts _).after fun _ => .pure _

theorem paramsText (signature : Option ClassSignature) :
    Asks inside [] (Header.paramsText signature : SketchM σ String)
      (Header.paramsText signature) := by
  cases signature with
  | none => exact .pure _
  | some s => exact typeParameters s.typeParams

theorem partsText (generic : Bool) (parts : Option (List RecordPart)) :
    Asks inside [] (Header.partsText generic parts : SketchM σ String)
      (Header.partsText generic parts) := by
  cases parts with
  | none => exact .pure _
  | some ps => exact (partTexts generic ps).after fun _ => .pure _

theorem headSupertypes (c : ClassDecl) (signature : Option ClassSignature) :
    Asks inside [] (Header.headSupertypes c signature : SketchM σ (List String))
      (Header.headSupertypes c signature) := by
  cases signature with
  | none => exact supertypeTexts c _ _
  | some s => exact supertypeTexts c _ _

theorem declarationText :
    Asks inside [] (Header.declarationText k n) (Header.declarationText k.journaled n) := by
  have hsignature : Asks inside [] (Header.headSignature k n.decl)
      (Header.headSignature k.journaled n.decl) := .ite (inGenealogy _) (.pure _)
  rw [Header.declarationText_eq, Header.declarationText_eq]
  refine hsignature.after fun signature => (paramsText signature).after fun _ => ?_
  exact (partsText _ _).after fun _ => (headSupertypes _ signature).after fun _ => .pure _

theorem header (level : Nat) :
    Asks inside [] (Header.sketch k n level) (Header.sketch k.journaled n level) := by
  rw [Header.sketch, Header.sketch]
  refine .ite (.edit fun _ => rfl) ?_
  refine (leadLines _ _ _ level).after fun _ => (declarationText k n).after fun _ => ?_
  exact .edit fun _ => rfl

end Heads

section Fields

variable (k : Kit σ) (c : ClassDecl) (level : Nat)

theorem sketchConstant (f : FieldDecl) :
    Asks inside [] (FieldSketch.sketchConstant k c f level)
      (FieldSketch.sketchConstant k.journaled c f level) := by
  refine .edit fun d => ?_
  have hlead := scope_leadLines f.deprecated f.annotations [] level d
  cases k.renderer.initializer c f with
  | none => exact hlead
  | some args =>
    dsimp only
    split
    · exact hlead
    · exact hlead

theorem sketchField (f : FieldDecl) :
    Asks inside [] (FieldSketch.sketchField k c f level)
      (FieldSketch.sketchField k.journaled c f level) :=
  (leadLines _ _ _ level).after fun _ => (typeText _).after fun _ => .edit fun _ => rfl

theorem sketchFields (hidden : List String) :
    Asks inside [] (FieldSketch.sketchAll k hidden c level)
      (FieldSketch.sketchAll k.journaled hidden c level) := by
  have hfrom : ∀ fs inGroup, Asks inside [] (FieldSketch.sketchFrom k c level inGroup fs)
      (FieldSketch.sketchFrom k.journaled c level inGroup fs) := by
    intro fs
    induction fs with
    | nil => exact fun inGroup => .editWhen inGroup fun _ => rfl
    | cons f fs ih =>
      intro inGroup
      refine .ite ?_ ?_
      · refine after (.editWhen inGroup fun _ => rfl) fun _ => ?_
        exact (sketchConstant k c level f).after fun _ => ih true
      · refine after (.editWhen inGroup fun _ => rfl) fun _ => ?_
        exact (sketchField k c level f).after fun _ => ih false
  exact (hfrom _ false).after fun _ => .pure _

end Fields

section Methods

variable (k : Kit σ) (n : ClassNode) (m : MethodDecl) (s : MethodShape) (level : Nat)

theorem paramTexts (c : ClassDecl) (varargs : Bool) (skip position : Nat) (raws : List Nat)
    (ts : List JType) :
    Asks inside [] (MethodSketch.paramTexts k c m varargs skip position raws ts)
      (MethodSketch.paramTexts k.journaled c m varargs skip position raws ts) := by
  induction raws generalizing position ts with
  | nil => exact .pure _
  | cons raw raws ih =>
    cases ts with
    | nil => exact .pure _
    | cons t ts =>
      rw [MethodSketch.paramTexts, MethodSketch.paramTexts]
      refine .ite (ih _ _) ?_
      cases t.element?.filter fun _ => varargs && ts.isEmpty with
      | none => exact (typeText t).after fun _ => (ih _ _).after fun _ => .pure _
      | some element => exact (typeText element).after fun _ => (ih _ _).after fun _ => .pure _

theorem functionText :
    Asks inside [] (MethodSketch.functionText m s : SketchM σ (String × Nat))
      (MethodSketch.functionText m s) := by
  refine (typeParameters s.typeParams).after fun params => ?_
  cases s.hasReceiver with
  | false => exact .pure _
  | true =>
    cases s.params with
    | nil => exact .pure _
    | cons t ts => exact (typeText t).after fun _ => .pure _

theorem signatureText :
    Asks inside [] (MethodSketch.signatureText k n m s)
      (MethodSketch.signatureText k.journaled n m s) := by
  have hresult : Asks inside [] (MethodSketch.resultText m s : SketchM σ String)
      (MethodSketch.resultText m s) := .ite (.pure _) ((typeText _).after fun _ => .pure _)
  have hparams : ∀ skip, Asks inside []
      (MethodSketch.paramTexts k n.decl m (s.flags.has .varargsFlag) skip 0 s.visible s.params)
      (MethodSketch.paramTexts k.journaled n.decl m (s.flags.has .varargsFlag) skip 0 s.visible
        s.params) := fun skip => paramTexts k m n.decl _ skip 0 s.visible s.params
  refine .ite (.pure _) (.ite (.pure _) (.ite ?_ ?_))
  · exact after (.pure _) fun _ => (hparams _).after fun _ => hresult.after fun _ => .pure _
  · exact (functionText m s).after fun _ =>
      (hparams _).after fun _ => hresult.after fun _ => .pure _

theorem overriding (c : ClassDecl) (params : List JType) :
    Asks inside [] (Override.check c m params : SketchM σ Bool) (Override.check c m params) := by
  refine .ite (.pure _) ((inGenealogy _).after fun ancestry => ?_)
  cases ancestry with
  | error _ => exact .pure _
  | ok a => exact .read fun _ _ _ => .pure _

theorem headText :
    Asks inside [] (MethodSketch.headText k n m s) (MethodSketch.headText k.journaled n m s) := by
  refine .ite ?_ ?_
  · exact (signatureText k n m s).after fun _ => .pure _
  · refine (overriding m n.decl s.params).after fun _ => ?_
    exact (signatureText k n m s).after fun _ => .pure _

theorem sketchLead :
    Asks inside [] (MethodSketch.sketchLead m s level : SketchM σ Unit)
      (MethodSketch.sketchLead m s level) := by
  refine (leadLines _ _ _ level).after fun _ => (typeTexts s.throws).after fun _ => ?_
  exact .editWhen _ fun _ => rfl

/-- The renderer is asked once, whatever comes of it. -/
theorem renderBody (site : BodySite) :
    Asks inside [site] (MethodSketch.renderBody k site)
      (MethodSketch.renderBody k.journaled site) := by
  have hasked : ∀ t, Asks inside [site] (SketchM.inMemory (k.renderer.body site t))
      (SketchM.inMemory (k.journaled.renderer.body site t)) := fun _ _ _ _ => ⟨rfl, rfl⟩
  refine .read fun b _ _ => (hasked _).before fun answer => ?_
  obtain ⟨outcome, trace⟩ := answer
  cases outcome with
  | error failure => exact (warn _).after fun _ => .pure _
  | ok body => exact .ite ((warn _).after fun _ => .pure _) (.pure _)

theorem close (site : BodySite) (trace : Trace) :
    Asks inside [] (MethodSketch.close k site trace level)
      (MethodSketch.close k.journaled site trace level) :=
  .edit fun _ => rfl

/-- The body belongs to the class of the scope. -/
theorem sketchBody (visible : Nat) :
    Asks inside [⟨n.decl, m, level + 1, k.options.layout, inside.getD n.decl.name⟩]
      (MethodSketch.sketchBody k n m visible level)
      (MethodSketch.sketchBody k.journaled n m visible level) := by
  -- The current class is looked up before the renderer is asked, in the state on entry.
  refine .read fun b journal hb => ?_
  rw [Bench.journaled, hb]
  refine (renderBody k _).before fun rendered => ?_
  obtain ⟨text, trace⟩ := rendered
  cases text with
  | none =>
    refine after (.edit fun _ => rfl) fun _ => ?_
    exact (close k level _ trace).after fun _ => .pure _
  | some text =>
    refine .ite (.pure _) (after (.editWhen _ fun d => ?_) fun _ => .ite (.pure _) ?_)
    · rw [MethodSketch.writeBody]
      split
      · rfl
      · rfl
    · exact (close k level _ trace).after fun _ => .pure _

theorem sketchOne :
    Asks inside (MethodSketch.sitesIn k n m level inside) (MethodSketch.sketchOne k n m level)
      (MethodSketch.sketchOne k.journaled n m level) := by
  refine inMethod m.key ((sketchLead m _ level).after fun _ => (headText k n m _).after fun _ => ?_)
  rw [MethodSketch.sitesIn]
  cases hbody : (MethodShape.ofMethod k n m).hasBody with
  | false =>
    have hbody' : (MethodShape.ofMethod k.journaled n m).hasBody = false := hbody
    rw [hbody']
    exact after (.edit fun _ => rfl) fun _ => .pure _
  | true =>
    have hbody' : (MethodShape.ofMethod k.journaled n m).hasBody = true := hbody
    rw [hbody']
    exact after (.edit fun _ => rfl) fun _ => sketchBody k n m level _

end Methods

end Asks

end ClassSketch
