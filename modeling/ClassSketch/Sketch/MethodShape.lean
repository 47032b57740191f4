import ClassSketch.Class.Ancestry
import ClassSketch.Class.Modifier
import ClassSketch.Sketch.Workshop

/-! What a method looks like in source, before any of it is written. -/

namespace ClassSketch

/-- The parts of a method's head. Parameters that the compiler added are left out. -/
structure MethodShape where
  flags : AccessFlags
  owner : Owner
  modifiers : ModifierSet
  typeParams : List TypeParameter
  /-- Positions in the descriptor of the parameters that are written. -/
  visible : List Nat
  params : List JType
  result : JType
  throws : List JType
  /-- The first parameter is written before the name. -/
  hasReceiver : Bool

namespace MethodShape

/-- A static initializer keeps only the static flag. -/
def effectiveFlags (m : MethodDecl) : AccessFlags :=
  if m.isStaticInit then m.access.inter .staticFlag
  else if m.access.has .nativeFlag then m.access.without .strictFlag
  else m.access

/-- A descriptor that cannot be read counts as that of a method without parameters and result. -/
def descriptorOf (m : MethodDecl) : MethodDescriptor :=
  m.erasedType.toOption.getD ⟨[], .prim .void 0⟩

def genericOf (o : Options) (m : MethodDecl) : Option MethodSignature :=
  if o.genericSignatures then m.signature.bind fun s => (Signature.parseMethodSignature s).toOption
  else none

def isInt : JType → Bool
  | .prim .int 0 => true
  | _ => false

/-- Constructors of enums start with the name and the ordinal of the constant. -/
def startsWithNameAndOrdinal : List JType → Bool
  | name :: ordinal :: _ => name.className? == some "java/lang/String" && isInt ordinal
  | _ => false

/-- Constructors of inner classes start with the enclosing instance. -/
def startsWithOuter (n : ClassNode) (params : List JType) : Bool :=
  match n.kind, params.head?.bind JType.className? with
  | .member, some c | .anonymous, some c | .localClass, some c =>
    !n.access.has .staticFlag
      && (n.enclosers.contains c || n.decl.enclosing.any fun site => site.className == c)
  | _, _ => false

/-- The first `n` entries of a list, filled up with `false`. -/
def fillUp (n : Nat) (given : List Bool) : List Bool :=
  (given ++ List.replicate (n - given.length) false).take n

/-- Which parameters the compiler added. -/
def addedMask {σ : Type} (k : Kit σ) (n : ClassNode) (m : MethodDecl) (params : List JType) :
    List Bool :=
  if !m.isConstructor then fillUp params.length []
  else
    match k.renderer.addedParameters n.decl m with
    | some given => fillUp params.length given
    | none =>
      if n.decl.isEnum && k.options.enumSyntax then
        fillUp params.length (if startsWithNameAndOrdinal params then [true, true] else [])
      else fillUp params.length (if startsWithOuter n params then [true] else [])

/-- The positions of the entries that are false, counted from `i`. -/
def positionsOfFalse (i : Nat) : List Bool → List Nat
  | [] => []
  | true :: bs => positionsOfFalse (i + 1) bs
  | false :: bs => i :: positionsOfFalse (i + 1) bs

/-- The parameters where the mask is false. -/
def shownParams : List Bool → List JType → List JType
  | false :: bs, t :: ts => t :: shownParams bs ts
  | true :: bs, _ :: ts => shownParams bs ts
  | _, _ => []

def functionInfo? (c : ClassDecl) (m : MethodDecl) : Option FunctionInfo :=
  c.metadata.bind (·.functionOfMethod? m.name m.descriptor)

def shapeModifiers (c : ClassDecl) (m : MethodDecl) (flags : AccessFlags) (owner : Owner) :
    ModifierSet :=
  let s := ModifierSet.ofAccess flags owner
  let s := match functionInfo? c m with
    | some f => s.withWord f.word owner
    | none => s
  let s := s.erase .final
  if c.isInterface then s.erase .abstract_ else s

/-- The generic signature gives the types of the parameters if it has as many as are written. -/
def ofMethod {σ : Type} (k : Kit σ) (n : ClassNode) (m : MethodDecl) : MethodShape :=
  let flags := effectiveFlags m
  let owner : Owner := if m.isConstructor then .constructor_ else .function
  let descriptor := descriptorOf m
  let generic := genericOf k.options m
  let mask := addedMask k n m descriptor.params
  let visible := positionsOfFalse 0 mask
  { flags, owner, visible
    modifiers := shapeModifiers n.decl m flags owner
    typeParams := generic.elim [] (·.typeParams)
    params := match generic with
      | some s =>
        if s.params.length = visible.length then s.params
        else shownParams mask descriptor.params
      | none => shownParams mask descriptor.params
    result := generic.elim descriptor.result (·.result)
    throws := match generic with
      | some s => if s.throws.isEmpty then m.exceptions.map JType.ofClass else s.throws
      | none => m.exceptions.map JType.ofClass
    hasReceiver := (functionInfo? n.decl m).any fun f => f.receiver.isSome }

/-- Methods that are abstract or native have no body. -/
def hasBody (s : MethodShape) : Bool :=
  !s.flags.hasSome (AccessFlags.abstractFlag.union .nativeFlag)

end MethodShape

/-- Private and static methods neither override nor are overridden. -/
def MethodDecl.isInherited (m : MethodDecl) : Bool :=
  !m.access.hasSome (AccessFlags.privateFlag.union .staticFlag)

namespace Override

/-- Erased types of parameters are equal once the ancestor's variables have their values. -/
def sameErasure (s : Substitution) (theirs ours : List JType) : Bool :=
  theirs.length == ours.length
    && (theirs.zip ours).all fun (t, o) => (t.substitute s).descriptor == o.descriptor

def isOverridden (s : Option Substitution) (m : MethodDecl) (params : List JType) (c : MethodDecl) :
    Bool :=
  c.name == m.name && !c.isConstructor && c.isInherited
    && (c.descriptor == m.descriptor
      || match c.signature.bind (fun t => (Signature.parseMethodSignature t).toOption), s with
        | some theirs, some s => sameErasure s theirs.params params
        | _, _ => false)

/-- Some ancestor declares a method that this one overrides. -/
def inAncestry (l : Library) (a : Ancestry) (m : MethodDecl) (params : List JType) : Bool :=
  a.properNames.any fun name =>
    match l.find? name with
    | some c => c.methods.any (isOverridden (a.substitution? name) m params)
    | none => false

/-- A class whose ancestry is broken overrides nothing. -/
def check {σ : Type} (c : ClassDecl) (m : MethodDecl) (params : List JType) : SketchM σ Bool := do
  if !m.isInherited then return false
  match ← SketchM.inGenealogy (Genealogy.ancestry c.name) with
  | .error _ => return false
  | .ok a => return inAncestry (← get).shop.genealogy.library a m params

end Override

end ClassSketch
