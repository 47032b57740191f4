import ClassSketch.Class.Modifier
import ClassSketch.Sketch.Workshop

/-! The head of a class: remarks, annotations, modifiers, keyword, name, type parameters, record
components and supertypes. -/

namespace ClassSketch

namespace Header

def isObjectKind (c : ClassDecl) : Bool :=
  match c.metadata.bind Metadata.declaredKind? with
  | some .object | some .companionObject => true
  | _ => false

def keyword (enumSyntax : Bool) (c : ClassDecl) : String :=
  match c.metadata.bind Metadata.declaredKind? with
  | some .object => "object"
  | some .companionObject => "companion object"
  | _ =>
    if c.isEnum && enumSyntax then "enum class"
    else if c.isAnnotation then "annotation class"
    else if c.isInterface then "interface"
    else "class"

/-- Final is the default for classes, so it is left out and its absence is written. -/
def adjustModality (c : ClassDecl) (s : ModifierSet) : ModifierSet :=
  if c.isInterface || c.isEnum || isObjectKind c then
    ((s.erase .abstract_).erase .open_).erase .final
  else if s.has .sealed then (s.erase .abstract_).erase .final
  else if s.has .final then s.erase .final
  else if !s.has .private_ && !s.has .abstract_ then s.insert .open_
  else s

def isInner (n : ClassNode) : Bool :=
  n.kind == .member && !n.access.has .staticFlag && !n.decl.isInterface && !n.decl.isEnum

def modifiers (n : ClassNode) : ModifierSet :=
  let s := ModifierSet.ofAccess n.access .class_
  let s := match n.decl.metadata with
    | some m => if m.isFileFacade then s else s.withWord m.word .class_
    | none => s
  let s := adjustModality n.decl s
  let s := if n.decl.isRecord then s.insert .data else s
  s.insertIf .inner (isInner n || s.has .inner)

/-- The type of a record component; `Object` if none can be read. -/
def partType (generic : Bool) (p : RecordPart) : JType :=
  let fromSignature :=
    if generic then p.signature.bind fun s => (Signature.parseFieldType s).toOption
    else none
  (fromSignature.or (Signature.parseFieldType p.descriptor).toOption).getD .object

variable {σ : Type}

def partTexts (generic : Bool) : List RecordPart → SketchM σ (List String)
  | [] => return []
  | p :: ps => do
    let type ← SketchM.typeText (partType generic p)
    let others ← partTexts generic ps
    return (p.name ++ ": " ++ type) :: others

/-- Superclasses that the keyword of the class already says. -/
def impliedSuperclasses : List String := [Name.objectClass, "java/lang/Enum", "java/lang/Record"]

def isImplied (t : JType) : Bool :=
  match t.className? with
  | some n => impliedSuperclasses.contains n
  | none => false

def shownInterfaces (c : ClassDecl) (ts : List JType) : List JType :=
  if c.isAnnotation then
    ts.filter fun t => t.className? != some "java/lang/annotation/Annotation"
  else ts

/-- The superclass is called, interfaces are not. -/
def supertypeTexts (c : ClassDecl) (superclass : Option JType) (interfaces : List JType) :
    SketchM σ (List String) := do
  let first ← match superclass.filter fun t => !isImplied t with
    | some t => do pure [(← SketchM.typeText t) ++ "()"]
    | none => pure []
  let others ← SketchM.typeTexts (shownInterfaces c interfaces)
  return first ++ others

def declarationText (k : Kit σ) (n : ClassNode) : SketchM σ String := do
  let c := n.decl
  let signature ← if k.options.genericSignatures then
      SketchM.inGenealogy (Genealogy.signature? c)
    else pure none
  let params ← match signature with
    | some s => SketchM.typeParameters s.typeParams
    | none => pure ""
  let parts ← match c.recordParts with
    | some ps => do
      pure ("(" ++ ", ".intercalate (← partTexts k.options.genericSignatures ps) ++ ")")
    | none => pure ""
  let supertypes ← match signature with
    | some s => supertypeTexts c (some s.superclass) s.interfaces
    | none => supertypeTexts c (c.superclass.map JType.ofClass) (c.interfaces.map JType.ofClass)
  return (modifiers n).renderLeading .class_ ++ keyword k.options.enumSyntax c ++ " "
    ++ n.displayName ++ params ++ parts
    ++ (if supertypes.isEmpty then "" else " : " ++ ", ".intercalate supertypes) ++ " \x7b"

/-- An anonymous class has no head of its own, only the brace after its type. -/
def sketch (k : Kit σ) (n : ClassNode) (level : Nat) : SketchM σ Unit := do
  if n.kind == .anonymous then
    SketchM.edit fun d => (d.append " \x7b").endLine
  else
    let remarks := (n.renamedFrom.map ("renamed from: " ++ ·)).toList
      ++ if n.access.isSynthetic || n.decl.isSynthetic then ["synthetic class"] else []
    SketchM.edit (leadLines n.decl.deprecated n.decl.annotations remarks level)
    let text ← declarationText k n
    SketchM.edit (Draft.writeLine level text)

end Header

end ClassSketch
