import ClassSketch.Proofs.Bodies
import ClassSketch.Proofs.ShortNames
import ClassSketch.Render.Prepared
import ClassSketch.Session

/-! Methods that turn out to be hidden after their heads were written. The text goes back to where
it was, but the head has asked for the names of its types, and the answers stay given. -/

namespace ClassSketch

namespace Imports

/-- Asking for the names one after another. -/
def asked (names : List String) (i : Imports) : Imports := (names.mapM shortName i).2

theorem asked_nil (i : Imports) : i.asked [] = i := rfl

theorem asked_append (names more : List String) (i : Imports) :
    i.asked (names ++ more) = (i.asked names).asked more := by
  rw [asked, List.mapM_append]
  rfl

theorem asked_cons (name : String) (names : List String) (i : Imports) :
    i.asked (name :: names) = (shortName name i).2.asked names := by
  rw [asked, List.mapM_cons]
  rfl

/-- There is nothing left to decide about the name: its short form belongs to somebody, and if to
its own class then that is imported as far as it has to be. -/
structure Settled (i : Imports) (name : String) : Prop where
  decided : ∃ top, i.claimed.lookup (Name.simple (Name.topLevel name)) = some top
  imported : i.Grants name → i.needsImport name = true →
    Name.dottedPackage (Name.topLevel name) ∈ i.imported

theorem decided_asked {names : List String} {i : Imports} :
    ∀ n ∈ names, ∃ top,
      (i.asked names).claimed.lookup (Name.simple (Name.topLevel n)) = some top := by
  induction names generalizing i with
  | nil => exact List.forall_mem_nil _
  | cons name names ih =>
    rw [asked_cons]
    refine List.forall_mem_cons.mpr ⟨?_, ih⟩
    obtain ⟨top, htop⟩ := (answered_shortName name i).decided
    exact ⟨top, (answered_run names _).extended.claimed _ _ htop⟩

theorem claimed_asked_of_decided {names : List String} {i : Imports}
    (h : ∀ n ∈ names, ∃ top, i.claimed.lookup (Name.simple (Name.topLevel n)) = some top) :
    (i.asked names).claimed = i.claimed := by
  induction names generalizing i with
  | nil => rfl
  | cons name names ih =>
    obtain ⟨⟨top, htop⟩, hrest⟩ := List.forall_mem_cons.mp h
    have hfirst : (shortName name i).2.claimed = i.claimed := by
      simp only [shortName, htop]
      split
      · exact claimed_grant name i
      · rfl
    rw [asked_cons, ih (hfirst ▸ hrest), hfirst]

/-- Questions leave no trace only if nothing was left to decide. -/
theorem asked_unchanged_iff (names : List String) (i : Imports) :
    ((∀ d, d ∈ (i.asked names).imported ↔ d ∈ i.imported) ∧ (i.asked names).claimed = i.claimed) ↔
      ∀ n ∈ names, i.Settled n := by
  have hrun := answered_run names i
  have hgrants : (i.asked names).claimed = i.claimed →
      ∀ n, (i.asked names).Grants n ↔ i.Grants n := by
    intro hclaimed n
    rw [Grants, hclaimed, Grants]
  constructor
  · rintro ⟨himported, hclaimed⟩ n hn
    refine ⟨hclaimed ▸ decided_asked n hn, fun hg hneeds => ?_⟩
    exact (himported _).mp ((hrun.mem_imported _).mpr
      (.inl ⟨n, hn, (hgrants hclaimed n).mpr hg, hneeds, rfl⟩))
  · intro h
    have hclaimed := claimed_asked_of_decided fun n hn => (h n hn).decided
    refine ⟨fun d => ⟨fun hd => ?_, fun hd => (hrun.mem_imported d).mpr (.inr hd)⟩, hclaimed⟩
    rcases (hrun.mem_imported d).mp hd with ⟨n, hn, hg, hneeds, rfl⟩ | hd
    · exact (h n hn).imported ((hgrants hclaimed n).mp hg) hneeds
    · exact hd

end Imports

section Names

mutual

/-- The names of the classes in a type, in the order in which they are written. -/
def JType.names : JType → List String
  | .prim _ _ => []
  | .var _ _ => []
  | .named n as _ => n :: namesOfArgs as

def JType.namesOfArg : TypeArg → List String
  | .wildcard => []
  | .exact t => t.names
  | .upper t => t.names
  | .lower t => t.names

def JType.namesOfArgs : List TypeArg → List String
  | [] => []
  | a :: as => namesOfArg a ++ namesOfArgs as

end

theorem JType.names_of_element {t e : JType} (h : t.element? = some e) : e.names = t.names := by
  rw [element?] at h
  split at h
  · cases h
  · cases Option.some.inj h
    cases t <;> rfl

namespace MethodSketch

variable {σ : Type}

/-- The names that the start of a function is written with. -/
def functionNames (s : MethodShape) : List String :=
  s.typeParams.flatMap (·.visibleBounds.flatMap JType.names) ++
    if s.hasReceiver then s.params.head?.toList.flatMap JType.names else []

def paramNames (s : MethodShape) (skip : Nat) : List String :=
  ((s.visible.zip s.params).drop skip).flatMap (·.2.names)

def resultNames (m : MethodDecl) (s : MethodShape) : List String :=
  if m.isConstructor || s.result.isVoid then [] else s.result.names

def signatureNames (n : ClassNode) (m : MethodDecl) (s : MethodShape) : List String :=
  if m.isStaticInit || (m.isConstructor && n.kind == .anonymous) then []
  else if m.isConstructor then paramNames s 0 ++ resultNames m s
  else functionNames s ++
    (paramNames s (if s.hasReceiver && !s.params.isEmpty then 1 else 0) ++ resultNames m s)

/-- The names of classes that are written before the body of a method. -/
def names (k : Kit σ) (n : ClassNode) (m : MethodDecl) : List String :=
  let s := MethodShape.ofMethod k n m
  s.throws.flatMap JType.names ++ signatureNames n m s

end MethodSketch

end Names

/-- The action asks for the names and nothing else of what is kept when text is taken back: the line
map, the scope and the failures stay as they are. -/
def Spells {σ α : Type} (names : List String) (a : SketchM σ α) : Prop :=
  ∀ b, (a b).2.draft.imports = b.draft.imports.asked names ∧ (a b).2.draft.frame = b.draft.frame

namespace Spells

variable {σ α β : Type} {names more : List String}

theorem pure (x : α) : Spells (σ := σ) [] (Pure.pure x) := fun _ => ⟨rfl, rfl⟩

/-- What follows may depend on the answer. -/
theorem bindOf {a : SketchM σ α} {f : α → SketchM σ β} {P : α → Prop} (h : Spells names a)
    (ha : ∀ b, P (a b).1) (hf : ∀ x, P x → Spells more (f x)) :
    Spells (names ++ more) (a >>= f) := by
  intro b
  obtain ⟨hfirst, hframe⟩ := h b
  obtain ⟨hrest, hframe'⟩ := hf (a b).1 (ha b) (a b).2
  refine ⟨?_, hframe'.trans hframe⟩
  rw [Imports.asked_append, ← hfirst]
  exact hrest

theorem bind {a : SketchM σ α} {f : α → SketchM σ β} (h : Spells names a)
    (hf : ∀ x, Spells more (f x)) : Spells (names ++ more) (a >>= f) :=
  h.bindOf (P := fun _ => True) (fun _ => trivial) fun x _ => hf x

theorem map {a : SketchM σ α} (h : Spells names a) (f : α → SketchM σ β)
    (hf : ∀ x, Spells [] (f x)) : Spells names (a >>= f) := by
  rw [← List.append_nil names]
  exact h.bind hf

/-- What draws alone asks for no name. -/
theorem editWhen (p : Bool) {f : Draft → Draft} (himports : ∀ d, (f d).imports = d.imports)
    (hframe : ∀ d, (f d).frame = d.frame) : Spells (σ := σ) [] (SketchM.editWhen p f) := by
  intro b
  cases p with
  | false => exact ⟨rfl, rfl⟩
  | true => exact ⟨himports b.draft, hframe b.draft⟩

section Types

theorem shortName (name : String) : Spells (σ := σ) [name] (SketchM.shortName name) :=
  fun _ => ⟨rfl, rfl⟩

mutual

theorem display : ∀ t : JType, Spells (σ := σ) t.names (t.display SketchM.shortName)
  | .prim p d => by
    rw [JType.display, JType.names]
    exact .pure _
  | .var v d => by
    rw [JType.display, JType.names]
    exact .pure _
  | .named n as d => by
    rw [JType.display, JType.names]
    exact (shortName n).bind fun _ => (displayArgs as).map _ fun _ => .pure _

theorem displayArg : ∀ a : TypeArg,
    Spells (σ := σ) (JType.namesOfArg a) (JType.displayArg SketchM.shortName a)
  | .wildcard => by
    rw [JType.displayArg, JType.namesOfArg]
    exact .pure _
  | .exact t => by
    rw [JType.displayArg, JType.namesOfArg]
    exact display t
  | .upper t => by
    rw [JType.displayArg, JType.namesOfArg]
    exact (display t).map _ fun _ => .pure _
  | .lower t => by
    rw [JType.displayArg, JType.namesOfArg]
    exact (display t).map _ fun _ => .pure _

theorem displayArgs : ∀ as : List TypeArg,
    Spells (σ := σ) (JType.namesOfArgs as) (JType.displayArgs SketchM.shortName as)
  | [] => by
    rw [JType.displayArgs, JType.namesOfArgs]
    exact .pure _
  | a :: as => by
    rw [JType.displayArgs, JType.namesOfArgs]
    exact (displayArg a).bind fun _ => (displayArgs as).map _ fun _ => .pure _

end

theorem typeText (t : JType) : Spells (σ := σ) t.names (SketchM.typeText t) := display t

theorem typeTexts (ts : List JType) :
    Spells (σ := σ) (ts.flatMap JType.names) (SketchM.typeTexts ts) := by
  induction ts with
  | nil => exact .pure _
  | cons t ts ih =>
    rw [List.flatMap_cons]
    exact (typeText t).bind fun _ => ih.map _ fun _ => .pure _

theorem typeParameters (ps : List TypeParameter) :
    Spells (σ := σ) (ps.flatMap (·.visibleBounds.flatMap JType.names))
      (SketchM.typeParameters ps) := by
  have htexts : Spells (σ := σ) (ps.flatMap (·.visibleBounds.flatMap JType.names))
      (SketchM.typeParameterTexts ps) := by
    induction ps with
    | nil => exact .pure _
    | cons p ps ih =>
      rw [List.flatMap_cons]
      exact (typeTexts p.visibleBounds).bind fun _ => ih.map _ fun _ => .pure _
  exact htexts.map _ fun _ => .pure _

end Types

section Methods

variable (k : Kit σ) (n : ClassNode) (m : MethodDecl) (s : MethodShape)

theorem paramTexts (c : ClassDecl) (varargs : Bool) (skip position : Nat) (raws : List Nat)
    (ts : List JType) :
    Spells (((raws.zip ts).drop (skip - position)).flatMap (·.2.names))
      (MethodSketch.paramTexts k c m varargs skip position raws ts) := by
  induction raws generalizing position ts with
  | nil =>
    rw [List.zip_nil_left, List.drop_nil]
    exact .pure _
  | cons raw raws ih =>
    cases ts with
    | nil =>
      rw [List.zip_nil_right, List.drop_nil]
      exact .pure _
    | cons t ts =>
      have hrest := ih (position + 1) ts
      rw [MethodSketch.paramTexts, List.zip_cons_cons]
      split
      · next hlt =>
        have hskip : skip - position = skip - (position + 1) + 1 := by omega
        rw [hskip, List.drop_succ_cons]
        exact hrest
      · next hge =>
        have hzero : skip - position = 0 := by omega
        have hzero' : skip - (position + 1) = 0 := by omega
        rw [hzero', List.drop_zero] at hrest
        rw [hzero, List.drop_zero, List.flatMap_cons]
        have hothers : ∀ first : String, Spells ((raws.zip ts).flatMap (·.2.names))
            (do return first ::
              (← MethodSketch.paramTexts k c m varargs skip (position + 1) raws ts)) :=
          fun first => hrest.map _ fun _ => .pure _
        split
        · next element he =>
          have hnames := JType.names_of_element (Option.filter_eq_some_iff.mp he).1
          dsimp only
          rw [← hnames]
          exact (typeText element).bind fun _ => hothers _
        · exact (typeText t).bind fun _ => hothers _

theorem functionText : Spells (σ := σ) (MethodSketch.functionNames s)
    (MethodSketch.functionText m s) := by
  rw [MethodSketch.functionText, MethodSketch.functionNames]
  refine (typeParameters s.typeParams).bind fun _ => ?_
  cases hreceiver : s.hasReceiver with
  | false => exact .pure _
  | true =>
    cases hparams : s.params with
    | nil => exact .pure _
    | cons t ts =>
      rw [if_pos rfl, List.head?_cons, Option.toList_some, List.flatMap_singleton]
      exact (typeText t).map _ fun _ => .pure _

/-- How many parameters the start of a function uses up. -/
theorem skip_functionText (b : Bench σ) : (MethodSketch.functionText m s b).1.2 =
    if s.hasReceiver && !s.params.isEmpty then 1 else 0 := by
  rw [MethodSketch.functionText]
  cases hreceiver : s.hasReceiver with
  | false => rfl
  | true => cases hparams : s.params <;> rfl

theorem resultText : Spells (σ := σ) (MethodSketch.resultNames m s)
    (MethodSketch.resultText m s) := by
  rw [MethodSketch.resultText, MethodSketch.resultNames]
  split
  · exact .pure _
  · exact (typeText s.result).map _ fun _ => .pure _

theorem signatureText : Spells (MethodSketch.signatureNames n m s)
    (MethodSketch.signatureText k n m s) := by
  have hrest : ∀ start skip, Spells (MethodSketch.paramNames s skip ++ MethodSketch.resultNames m s)
      (do
        let params ← MethodSketch.paramTexts k n.decl m (s.flags.has .varargsFlag) skip 0 s.visible
          s.params
        let result ← MethodSketch.resultText m s
        return start ++ "(" ++ ", ".intercalate params ++ ")" ++ result) := by
    intro start skip
    have hparams := paramTexts k m n.decl (s.flags.has .varargsFlag) skip 0 s.visible s.params
    exact hparams.bind fun _ => (resultText m s).map _ fun _ => .pure _
  rw [MethodSketch.signatureText, MethodSketch.signatureNames]
  by_cases hinit : m.isStaticInit = true
  · rw [if_pos hinit, if_pos (by rw [hinit, Bool.true_or])]
    exact .pure _
  · by_cases hanonymous : (m.isConstructor && n.kind == .anonymous) = true
    · rw [if_neg hinit, if_pos hanonymous, if_pos (by rw [hanonymous, Bool.or_true])]
      exact .pure _
    · rw [if_neg hinit, if_neg hanonymous, if_neg (by simp [hinit, hanonymous])]
      by_cases hconstructor : m.isConstructor = true
      · rw [if_pos hconstructor, if_pos hconstructor]
        exact hrest "constructor" 0
      · rw [if_neg hconstructor, if_neg hconstructor]
        refine (functionText m s).bindOf
          (P := fun x => x.2 = if s.hasReceiver && !s.params.isEmpty then 1 else 0)
          (skip_functionText m s) fun x hx => ?_
        rw [← hx]
        exact hrest x.1 x.2

theorem headText : Spells (MethodSketch.signatureNames n m s) (MethodSketch.headText k n m s) := by
  have hrest : ∀ overriding : Bool, Spells (MethodSketch.signatureNames n m s)
      (do
        let signature ← MethodSketch.signatureText k n m s
        return (if overriding then "override " else "") ++ s.modifiers.renderLeading s.owner
          ++ signature) :=
    fun overriding => (signatureText k n m s).map _ fun _ => .pure _
  have hcheck : Spells (σ := σ) [] (Override.check n.decl m s.params) := by
    intro b
    rw [Override.draft_check]
    exact ⟨rfl, rfl⟩
  rw [MethodSketch.headText]
  split
  · exact hrest false
  · exact hcheck.bind hrest

theorem sketchLead (level : Nat) : Spells (σ := σ) (s.throws.flatMap JType.names)
    (MethodSketch.sketchLead m s level) := by
  have hlines : ∀ (ss : List String) (d : Draft),
      (d.writeLines level ss).imports = d.imports ∧ (d.writeLines level ss).frame = d.frame := by
    intro ss d
    exact List.foldlRecOn (motive := fun d' : Draft => d'.imports = d.imports ∧ d'.frame = d.frame)
      _ _ ⟨rfl, rfl⟩ fun _ h _ _ => h
  have hremarks : ∀ (ss : List String) (d : Draft),
      (ss.foldl (fun d s => d.remark level s) d).imports = d.imports ∧
        (ss.foldl (fun d s => d.remark level s) d).frame = d.frame := by
    intro ss d
    exact List.foldlRecOn (motive := fun d' : Draft => d'.imports = d.imports ∧ d'.frame = d.frame)
      _ _ ⟨rfl, rfl⟩ fun _ h _ _ => h
  have hlead : ∀ (remarks : List String) (d : Draft),
      (leadLines m.deprecated m.annotations remarks level d).imports = d.imports ∧
        (leadLines m.deprecated m.annotations remarks level d).frame = d.frame := by
    intro remarks d
    rw [leadLines, (hlines _ _).1, (hlines _ _).2, (hremarks _ _).1, (hremarks _ _).2]
    cases m.deprecated <;> exact ⟨rfl, rfl⟩
  have hthrows : Spells (σ := σ) (s.throws.flatMap JType.names)
      (MethodSketch.throwsLine s.throws level) :=
    (typeTexts s.throws).map _ fun _ => editWhen _ (fun _ => rfl) fun _ => rfl
  rw [MethodSketch.sketchLead, ← List.nil_append (List.flatMap _ _)]
  exact bind (editWhen true (fun d => (hlead _ d).1) fun d => (hlead _ d).2) fun _ => hthrows

end Methods

end Spells

namespace MethodSketch

variable {σ : Type} (k : Kit σ) (n : ClassNode) (m : MethodDecl)

/-- A body that turns out to be hidden has written text alone. -/
theorem sketchBody_of_hidden {visible level : Nat} {b : Bench σ}
    (h : (sketchBody k n m visible level b).1 = .hidden) :
    (sketchBody k n m visible level b).2.draft.imports = b.draft.imports ∧
      (sketchBody k n m visible level b).2.draft.frame = b.draft.frame := by
  have hrendered : ∀ site, (renderBody k site b).2.draft = b.draft := by
    intro site
    rw [renderBody_apply]
  have hwritten : ∀ (blank : Bool) (text : String) (c : Bench σ),
      (SketchM.editWhen (!blank) (writeBody text) c).2.draft.imports = c.draft.imports ∧
        (SketchM.editWhen (!blank) (writeBody text) c).2.draft.frame = c.draft.frame := by
    intro blank text c
    cases blank with
    | true => exact ⟨rfl, rfl⟩
    | false =>
      change (writeBody text c.draft).imports = _ ∧ (writeBody text c.draft).frame = _
      rw [writeBody]
      split <;> exact ⟨rfl, rfl⟩
  simp only [sketchBody, bind, StateT.bind, get, getThe, MonadStateOf.get, StateT.get, pure] at h ⊢
  generalize (⟨n.decl, m, level + 1, k.options.layout, b.draft.scope.className.getD n.decl.name⟩ :
    BodySite) = site at h ⊢
  have hsite := hrendered site
  generalize renderBody k site b = r at h hsite ⊢
  obtain ⟨⟨text, trace⟩, c⟩ := r
  dsimp only at h hsite ⊢
  rw [← hsite]
  cases text with
  | none => cases h
  | some text =>
    dsimp only at h ⊢
    split at h
    · next hempty =>
      rw [if_pos hempty]
      exact ⟨rfl, rfl⟩
    · next hempty =>
      rw [if_neg hempty]
      have hbody := hwritten (Text.isBlankText text) text c
      simp only [StateT.bind] at h ⊢
      generalize SketchM.editWhen _ _ c = r at h hbody ⊢
      split at h
      · next hgenerated =>
        rw [if_pos hgenerated]
        exact hbody
      · cases h

theorem spells_leadAndHead (v : Visit) :
    Spells (names k v.node v.method) (leadAndHead k v) :=
  (Spells.sketchLead v.method (v.shape k) v.level).bind fun _ =>
    Spells.headText k v.node v.method (v.shape k)

theorem sketchOne_of_hidden {level : Nat} {b : Bench σ}
    (h : (sketchOne k n m level b).1 = .hidden) :
    (sketchOne k n m level b).2.draft.imports = b.draft.imports.asked (names k n m) ∧
      (sketchOne k n m level b).2.draft.frame = b.draft.frame := by
  have hlead := spells_leadAndHead k ⟨level, n, m⟩
    (Scoped.withScope b (b.draft.scope.enterMethod m.key))
  have happly := sketchOne_apply k ⟨level, n, m⟩ b
  dsimp only at happly
  rw [happly] at h ⊢
  generalize leadAndHead k ⟨level, n, m⟩ _ = lead at hlead h ⊢
  obtain ⟨head, c⟩ := lead
  dsimp only at hlead h ⊢
  rw [afterHead] at h ⊢
  split at h
  · next hbody =>
    rw [if_pos hbody]
    obtain ⟨himports, hframe⟩ := sketchBody_of_hidden k n m h
    have hc := hlead.2
    simp only [Draft.frame, Prod.mk.injEq] at hframe hc ⊢
    exact ⟨himports.trans hlead.1, hframe.1.trans hc.1, rfl, hframe.2.2.trans hc.2.2⟩
  · cases h

/-- A method that turns out to be hidden leaves the text, the line counter and the line map as they
were before it, and the names of its head asked for. So it leaves no trace exactly if nothing was
left to decide about these names. -/
theorem hidden_method_leaves_names {level : Nat} {content : Bool} {b : Bench σ}
    (h : (sketchOne k n m level (SketchM.editWhen content Draft.endLine b).2).1 = .hidden)
    (ms : List MethodDecl) :
    (∃ shop, sketchFrom k n level content (m :: ms) b = sketchFrom k n level content ms
        ⟨shop, { b.draft with imports := b.draft.imports.asked (names k n m) }⟩) ∧
      (((∀ d, d ∈ (b.draft.imports.asked (names k n m)).imported ↔ d ∈ b.draft.imports.imported) ∧
          (b.draft.imports.asked (names k n m)).claimed = b.draft.imports.claimed) ↔
        ∀ name ∈ names k n m, b.draft.imports.Settled name) := by
  refine ⟨?_, Imports.asked_unchanged_iff _ _⟩
  obtain ⟨himports, hframe⟩ := sketchOne_of_hidden k n m h
  obtain ⟨hblank, hblank'⟩ := Spells.editWhen (σ := σ) content (f := Draft.endLine) (fun _ => rfl)
    (fun _ => rfl) b
  have hnext := sketchNext_apply k ⟨level, n, m⟩ content b
  dsimp only at hnext
  rw [if_pos h] at hnext
  refine ⟨(sketchOne k n m level (SketchM.editWhen content Draft.endLine b).2).2.shop, ?_⟩
  rw [sketchFrom_cons]
  simp only [bind, StateT.bind, hnext]
  generalize sketchOne k n m level _ = r at himports hframe ⊢
  have hrewound : Draft.rewind b.draft r.2.draft =
      { b.draft with imports := b.draft.imports.asked (names k n m) } := by
    have hsame := hframe.trans hblank'
    simp only [Draft.frame, Prod.mk.injEq] at hsame
    rw [hblank, Imports.asked_nil] at himports
    rw [Draft.rewind, himports, hsame.1, hsame.2.1, hsame.2.2]
  rw [Bench.rewindTo, hrewound]

section Printed

def printed : MethodDecl where
  name := "toString"
  descriptor := "()Ljava/lang/String;"
  access := ⟨1⟩

def made : MethodDecl := { name := "make", descriptor := "()La/String;", access := ⟨1⟩ }

def printedRecord : ClassDecl where
  name := "a/P"
  access := ⟨17⟩
  superclass := some "java/lang/Record"
  recordParts := some []
  methods := [printed, made]

def printedBodies : PreparedBodies where
  bodies := [("a/P toString ()Ljava/lang/String;", "return this.toString<invokedynamic>(this);"),
    ("a/P make ()La/String;", "return null;")]

def printedKit : Kit Unit := ⟨{}, printedBodies.renderer Unit⟩

def printedBench : Bench Unit := ⟨⟨⟨.ofList [printedRecord], []⟩, (), [], []⟩, .ofRoot "a/P" {}⟩

theorem printed_hidden :
    (sketchOne printedKit (.ofDecl printedRecord) printed 1 printedBench).1 = .hidden := by
  decide +kernel

/-- The short name `String` was free, and after a method that is not to be seen it is taken. -/
theorem hidden_method_leaves_string :
    (sketchOne printedKit (.ofDecl printedRecord) printed 1 printedBench).1 = .hidden ∧
      (∃ shop, sketchFrom printedKit (.ofDecl printedRecord) 1 false [printed, made] printedBench =
        sketchFrom printedKit (.ofDecl printedRecord) 1 false [made]
          ⟨shop, { printedBench.draft with
            imports := printedBench.draft.imports.asked ["java/lang/String"] }⟩) ∧
      ¬ printedBench.draft.imports.Settled "java/lang/String" := by
  have hnames : names printedKit (.ofDecl printedRecord) printed = ["java/lang/String"] := by
    decide +kernel
  have hhidden : (sketchOne printedKit (.ofDecl printedRecord) printed 1
      (SketchM.editWhen false Draft.endLine printedBench).2).1 = .hidden := printed_hidden
  have hleft := hidden_method_leaves_names printedKit (.ofDecl printedRecord) printed hhidden [made]
  rw [hnames] at hleft
  refine ⟨printed_hidden, hleft.1, ?_⟩
  rintro ⟨⟨top, htop⟩, _⟩
  have hfree : printedBench.draft.imports.claimed.lookup
      (Name.simple (Name.topLevel "java/lang/String")) = none := by
    decide +kernel
  rw [hfree] at htop
  cases htop

/-- So a class `String` of the package itself is written in full, as if its short name were in
use. -/
theorem hidden_method_takes_name :
    (sketchOne printedKit (.ofDecl printedRecord) printed 1 printedBench).1 = .hidden ∧
      printedBench.draft.imports.claimed = [("P", "a/P")] ∧
      (sketchFrom printedKit (.ofDecl printedRecord) 1 false [printed]
          printedBench).2.draft.imports.claimed =
        [("String", "java/lang/String"), ("P", "a/P")] ∧
      ((Session.start printedKit (.ofList [printedRecord]) () .keep).write "a/P").toOption.map
          (·.1.text) =
        some ("package a\n\ndata class P() \x7b\n   fun make(): a.String \x7b\n" ++
          "      return null;\n   \x7d\n\x7d\n") :=
  ⟨printed_hidden, by decide +kernel, by decide +kernel, by decide +kernel⟩

end Printed

end MethodSketch

end ClassSketch
