import ClassSketch.Class.Modifier
import ClassSketch.Sketch.Workshop

/-! Fields and enum constants. -/

namespace ClassSketch

namespace FieldSketch

variable {σ : Type}

/-- Components of a record are declared in its head. -/
def isRecordPart (c : ClassDecl) (f : FieldDecl) : Bool :=
  c.isRecord && f.access.has (AccessFlags.privateFlag.union .finalFlag)
    && !f.access.has .staticFlag && (c.recordPart? f.name).isSome

def isHidden (o : Options) (hidden : List String) (c : ClassDecl) (f : FieldDecl) : Bool :=
  (f.isSynthetic && o.hideSynthetic) || hidden.contains (memberKey f.name f.descriptor)
    || isRecordPart c f

def isConstant (o : Options) (c : ClassDecl) (f : FieldDecl) : Bool :=
  c.isEnum && o.enumSyntax && f.access.has .enumFlag

/-- The type that is written; `Object` if it cannot be read. -/
def shownType (o : Options) (f : FieldDecl) : JType :=
  ((if o.genericSignatures then f.genericType else f.erasedType).toOption).getD .object

def defaultValue : JType → String
  | .prim p 0 => p.defaultLiteral
  | _ => "null"

/-- The value given by the renderer, or the constant of a static final field, or the value that the
field holds before anything is stored in it. -/
def initialValue (k : Kit σ) (c : ClassDecl) (f : FieldDecl) (t : JType) : String :=
  let constant := if f.access.has (AccessFlags.staticFlag.union .finalFlag) then
      f.constant.map (·.literal t.primitive?)
    else none
  ((k.renderer.initializer c f).or constant).getD (defaultValue t)

def propertyInfo? (c : ClassDecl) (f : FieldDecl) : Option PropertyInfo :=
  c.metadata.bind (·.propertyOfField? f.name)

def modifiers (c : ClassDecl) (f : FieldDecl) : ModifierSet :=
  let s := ModifierSet.ofAccess f.access .property
  let s := match propertyInfo? c f with
    | some p => s.withWord p.word .property
    | none => s
  s.erase .final

def isVar (c : ClassDecl) (f : FieldDecl) : Bool :=
  match propertyInfo? c f with
  | some p => Modifier.var.inWord p.word
  | none => !f.access.has .finalFlag

/-- The constant with its arguments, without an end of line. -/
def sketchConstant (k : Kit σ) (c : ClassDecl) (f : FieldDecl) (level : Nat) : SketchM σ Unit :=
  SketchM.edit fun d =>
    let d := leadLines f.deprecated f.annotations [] level d
    let d := (d.appendIndent level).append f.name
    match k.renderer.initializer c f with
    | some args => if args.isEmpty then d else d.append ("(" ++ args ++ ")")
    | none => d

def sketchField (k : Kit σ) (c : ClassDecl) (f : FieldDecl) (level : Nat) : SketchM σ Unit := do
  let remarks := if f.isSynthetic then ["synthetic field"] else []
  SketchM.edit (leadLines f.deprecated f.annotations remarks level)
  let t := shownType k.options f
  let type ← SketchM.typeText t
  SketchM.edit (Draft.writeLine level
    ((modifiers c f).renderLeading .property ++ (if isVar c f then "var " else "val ") ++ f.name
      ++ ": " ++ type ++ " = " ++ initialValue k c f t))

/-- Writes fields in their order. Constants that follow one another are divided by commas, and a
semicolon ends their group; `inGroup` says that the last field was a constant. -/
def sketchFrom (k : Kit σ) (c : ClassDecl) (level : Nat) (inGroup : Bool) :
    List FieldDecl → SketchM σ Unit
  | [] => SketchM.editWhen inGroup fun d => (d.append ";").endLine
  | f :: fs => do
    if isConstant k.options c f then
      SketchM.editWhen inGroup fun d => (d.append ",").endLine
      sketchConstant k c f level
      sketchFrom k c level true fs
    else
      SketchM.editWhen inGroup fun d => ((d.append ";").endLine).endLine
      sketchField k c f level
      sketchFrom k c level false fs

/-- Writes the fields of a class; says whether there were any. -/
def sketchAll (k : Kit σ) (hidden : List String) (c : ClassDecl) (level : Nat) :
    SketchM σ Bool := do
  let shown := c.fields.filter fun f => !isHidden k.options hidden c f
  sketchFrom k c level false shown
  return !shown.isEmpty

end FieldSketch

end ClassSketch
