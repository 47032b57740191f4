import ClassSketch.Sketch.MethodShape

/-! Methods: the lines before them, the head, the body, and the rules for leaving a method out once
its body is known. -/

namespace ClassSketch

namespace MethodSketch

variable {σ : Type}

/-- The list of parameters from `position` on; `skip` of them are not written. -/
def paramTexts (k : Kit σ) (c : ClassDecl) (m : MethodDecl) (varargs : Bool) (skip : Nat) :
    Nat → List Nat → List JType → SketchM σ (List String)
  | position, raw :: raws, t :: ts => do
    if position < skip then paramTexts k c m varargs skip (position + 1) raws ts
    else
      let name := k.parameterName c m raw position
      let first ← match t.element?.filter fun _ => varargs && ts.isEmpty with
        | some element => do pure ("vararg " ++ name ++ ": " ++ (← SketchM.typeText element))
        | none => do pure (name ++ ": " ++ (← SketchM.typeText t))
      let others ← paramTexts k c m varargs skip (position + 1) raws ts
      return first :: others
  | _, _, _ => return []

/-- The keyword of a function, with its type parameters, its receiver and its name; also says how
many parameters are used up. -/
def functionText (m : MethodDecl) (s : MethodShape) : SketchM σ (String × Nat) := do
  let params ← SketchM.typeParameters s.typeParams
  let params := if params.isEmpty then "" else params ++ " "
  match s.hasReceiver, s.params with
  | true, t :: _ =>
    let receiver ← SketchM.typeText t
    return ("fun " ++ params ++ receiver ++ "." ++ m.name, 1)
  | _, _ => return ("fun " ++ params ++ m.name, 0)

def resultText (m : MethodDecl) (s : MethodShape) : SketchM σ String := do
  if m.isConstructor || s.result.isVoid then return ""
  else return ": " ++ (← SketchM.typeText s.result)

def signatureText (k : Kit σ) (n : ClassNode) (m : MethodDecl) (s : MethodShape) :
    SketchM σ String := do
  if m.isStaticInit then return "static"
  else if m.isConstructor && n.kind == .anonymous then return "init"
  else
    let (start, skip) ← if m.isConstructor then pure ("constructor", 0) else functionText m s
    let params ← paramTexts k n.decl m (s.flags.has .varargsFlag) skip 0 s.visible s.params
    let result ← resultText m s
    return start ++ "(" ++ ", ".intercalate params ++ ")" ++ result

def headText (k : Kit σ) (n : ClassNode) (m : MethodDecl) (s : MethodShape) : SketchM σ String := do
  let overriding ← if m.isConstructor || m.isStaticInit then pure false
    else Override.check n.decl m s.params
  let signature ← signatureText k n m s
  return (if overriding then "override " else "") ++ s.modifiers.renderLeading s.owner ++ signature

def throwsLine (throws : List JType) (level : Nat) : SketchM σ Unit := do
  let texts ← SketchM.typeTexts throws
  SketchM.editWhen (!texts.isEmpty)
    (Draft.writeLine level ("@Throws(" ++ ", ".intercalate (texts.map (· ++ "::class")) ++ ")"))

/-- The lines before the head. -/
def sketchLead (m : MethodDecl) (s : MethodShape) (level : Nat) : SketchM σ Unit := do
  let remarks := (if m.isSynthetic then ["synthetic method"] else [])
    ++ if m.access.has .bridgeFlag then ["bridge method"] else []
  SketchM.edit (leadLines m.deprecated m.annotations remarks level)
  throwsLine s.throws level

/-- Members without statements that the compiler adds by itself. -/
def isHiddenWhenEmpty (o : Options) (n : ClassNode) (m : MethodDecl) (visible : Nat) : Bool :=
  m.isStaticInit
    || (m.isConstructor
      && (n.kind == .anonymous
        || (o.hideDefaultConstructor && m.exceptions.isEmpty && visible == 0 && !n.decl.isEnum
          && n.access.accessibility == m.access.accessibility && n.decl.constructors.length == 1)))

/-- Methods of `Object` that every record has. -/
def recordMethods : List (String × String) :=
  [("equals", "(Ljava/lang/Object;)Z"), ("hashCode", "()I"), ("toString", "()Ljava/lang/String;")]

/-- Whether a member of a record consists of the one line that the compiler adds. -/
def isGeneratedMember (c : ClassDecl) (m : MethodDecl) (body : String) : Bool :=
  match ((Text.lines body).map Text.trim).filter fun l => !l.isEmpty with
  | [line] =>
    if recordMethods.contains (m.name, m.descriptor) then
      Text.startsWith ("return this." ++ m.name ++ "<invokedynamic>(this") line
    else
      match c.recordPart? m.name with
      | some p => m.descriptor == "()" ++ p.descriptor && line == "return this." ++ m.name ++ ";"
      | none => false
  | _ => false

/-- What came of a body: its text, or nothing if it could not be rendered, and its trace. -/
structure Rendered where
  text : Option String
  trace : Trace

/-- Asks the renderer. Failures are noted, and what they left behind is dropped. -/
def renderBody (k : Kit σ) (site : BodySite) : SketchM σ Rendered := do
  let line := (← get).draft.line
  let about : MethodSite := ⟨site.decl.name, site.method.name, site.method.descriptor⟩
  let (outcome, trace) ←
    SketchM.inMemory (k.renderer.body site { line, lineTable := site.method.lineTable })
  match outcome with
  | .ok body =>
    if body.flagged then
      SketchM.warn (.flaggedBody about)
      return ⟨none, { line }⟩
    else return ⟨some body.text, trace⟩
  | .error failure =>
    SketchM.warn (match failure with
      | .crash _ => .crashedBody about failure.message
      | _ => .failedBody about failure.message)
    return ⟨none, { line }⟩

/-- What became of a method. -/
inductive Outcome where
  | written
  /-- The method is not to be seen after all, and its text has to go. -/
  | hidden
  /-- Written without its body. -/
  | failed
deriving DecidableEq

/-- The text of a body; a separator is added if the last line has none. -/
def writeBody (text : String) (d : Draft) : Draft :=
  let d' := d.appendText text
  if Text.endsWith d.buffer.layout.separator text then d' else d'.endLine

/-- The closing brace, which the exit offset is mapped to. -/
def close (k : Kit σ) (site : BodySite) (trace : Trace) (level : Nat) : SketchM σ Unit :=
  SketchM.edit fun d =>
    let trace := trace.moveTo d.line
    let trace := match k.renderer.exitOffset site with
      | some offset => trace.mark offset
      | none => trace
    let d := d.writeLine level "\x7d"
    { d with lineMap := d.lineMap.add site.decl.name site.method.key trace }

/-- The body of a method and its closing brace. -/
def sketchBody (k : Kit σ) (n : ClassNode) (m : MethodDecl) (visible level : Nat) :
    SketchM σ Outcome := do
  let current := (← get).draft.scope.className.getD n.decl.name
  let site : BodySite := ⟨n.decl, m, level + 1, k.options.layout, current⟩
  let rendered ← renderBody k site
  match rendered.text with
  | none =>
    SketchM.edit (Draft.writeLine (level + 1) placeholder)
    close k site rendered.trace level
    return .failed
  | some text =>
    let blank := Text.isBlankText text
    if blank && isHiddenWhenEmpty k.options n m visible then return .hidden
    else
      SketchM.editWhen (!blank) (writeBody text)
      if n.decl.isRecord && isGeneratedMember n.decl m text then return .hidden
      else
        close k site rendered.trace level
        return .written

def sketchOne (k : Kit σ) (n : ClassNode) (m : MethodDecl) (level : Nat) : SketchM σ Outcome :=
  inScope (.ofMethod m.key) do
    let s := MethodShape.ofMethod k n m
    sketchLead m s level
    let head ← headText k n m s
    if s.hasBody then
      SketchM.edit (Draft.writeLine level (head ++ " \x7b"))
      sketchBody k n m s.visible.length level
    else
      let default := match m.annotationDefault with
        | some value => " default " ++ value
        | none => ""
      SketchM.edit (Draft.writeLine level (head ++ default))
      return .written

def isSkipped (o : Options) (hidden : List String) (m : MethodDecl) : Bool :=
  (m.isSynthetic && o.hideSynthetic) || (m.access.has .bridgeFlag && o.hideBridges)
    || hidden.contains m.key

/-- Writes methods one after another, with an empty line before each one that follows something;
says whether anything stands there now. -/
def sketchFrom (k : Kit σ) (n : ClassNode) (level : Nat) (content : Bool) :
    List MethodDecl → SketchM σ Bool
  | [] => return content
  | m :: ms => do
    let before := (← get).draft
    SketchM.editWhen content Draft.endLine
    match ← sketchOne k n m level with
    | .hidden =>
      SketchM.edit (Draft.rewind before)
      sketchFrom k n level content ms
    | .written => sketchFrom k n level true ms
    | .failed =>
      SketchM.edit fun d => { d with failed := n.id :: d.failed }
      sketchFrom k n level true ms

/-- Writes the methods of a class except those that are hidden. -/
def sketchAll (k : Kit σ) (n : ClassNode) (hidden : List String) (level : Nat) (content : Bool) :
    SketchM σ Bool :=
  sketchFrom k n level content (n.decl.methods.filter fun m => !isSkipped k.options hidden m)

end MethodSketch

end ClassSketch
