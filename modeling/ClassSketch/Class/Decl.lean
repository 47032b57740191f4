import ClassSketch.Class.Access
import ClassSketch.Class.Constant
import ClassSketch.Class.Metadata
import ClassSketch.Type.Signature

/-! Classes as a class file declares them: members, attributes and code, already decoded. Types and
signatures stay texts here and are read on demand, so a malformed one spoils only what needs it. -/

namespace ClassSketch

/-- One class's word about the nesting of a class. No simple name means anonymous, no outer name
means declared inside a method. -/
structure NestingEntry where
  inner : String
  outer : Option String := none
  simpleName : Option String := none
  access : AccessFlags := {}
deriving DecidableEq, Inhabited

structure EnclosingSite where
  className : String
  methodName : Option String := none
  descriptor : Option String := none
deriving DecidableEq, Inhabited

structure RecordPart where
  name : String
  descriptor : String
  signature : Option String := none
deriving DecidableEq, Inhabited

structure LineEntry where
  startPc : UInt32
  line : UInt32
deriving DecidableEq, Inhabited

/-- The instructions that can name a class; the rest are `other`. -/
inductive Opcode where
  | checkcast | instanceof | new | anewarray | multianewarray | getstatic | putstatic | getfield
  | putfield | invokevirtual | invokespecial | invokestatic | invokeinterface | invokedynamic
  | return_ | other
deriving DecidableEq, Inhabited

structure Instruction where
  opcode : Opcode
  offset : UInt32 := 0
  operand : Option String := none
deriving DecidableEq, Inhabited

structure FieldDecl where
  name : String
  descriptor : String
  access : AccessFlags := {}
  signature : Option String := none
  constant : Option Constant := none
  synthetic : Bool := false
  deprecated : Bool := false
  annotations : List String := []
deriving Inhabited

structure MethodDecl where
  name : String
  descriptor : String
  access : AccessFlags := {}
  signature : Option String := none
  exceptions : List String := []
  code : Option (List Instruction) := none
  lineTable : List LineEntry := []
  parameterNames : Option (List String) := none
  annotationDefault : Option String := none
  synthetic : Bool := false
  deprecated : Bool := false
  annotations : List String := []
deriving DecidableEq, Inhabited

structure ModuleRequirement where
  module : String
  transitive : Bool := false
  compileOnly : Bool := false
deriving DecidableEq, Inhabited

structure ModulePackage where
  package : String
  targets : List String := []
deriving DecidableEq, Inhabited

structure ModuleService where
  service : String
  providers : List String
deriving DecidableEq, Inhabited

structure ModuleDecl where
  name : String
  isOpen : Bool := false
  requires : List ModuleRequirement := []
  exports : List ModulePackage := []
  opens : List ModulePackage := []
  uses : List String := []
  provides : List ModuleService := []
deriving DecidableEq, Inhabited

/-- A declared class. `own` classes are to be sketched, the others are only looked at. -/
structure ClassDecl where
  name : String
  access : AccessFlags := {}
  superclass : Option String := none
  interfaces : List String := []
  fields : List FieldDecl := []
  methods : List MethodDecl := []
  nesting : Option (List NestingEntry) := none
  enclosing : Option EnclosingSite := none
  signature : Option String := none
  recordParts : Option (List RecordPart) := none
  module : Option ModuleDecl := none
  metadata : Option Metadata := none
  synthetic : Bool := false
  deprecated : Bool := false
  annotations : List String := []
  own : Bool := true
deriving Inhabited

def memberKey (name descriptor : String) : String := name ++ " " ++ descriptor

namespace FieldDecl

def isSynthetic (f : FieldDecl) : Bool := f.synthetic || f.access.isSynthetic

def erasedType (f : FieldDecl) : Except SignatureError JType :=
  Signature.parseFieldType f.descriptor

/-- The type in the signature, or the erased one where there is no readable signature. -/
def genericType (f : FieldDecl) : Except SignatureError JType :=
  match f.signature.map Signature.parseFieldType with
  | some (.ok t) => .ok t
  | _ => f.erasedType

end FieldDecl

namespace MethodDecl

def key (m : MethodDecl) : String := memberKey m.name m.descriptor

def isConstructor (m : MethodDecl) : Bool := m.name == "<init>"

def isStaticInit (m : MethodDecl) : Bool := m.name == "<clinit>"

def isSynthetic (m : MethodDecl) : Bool := m.synthetic || m.access.isSynthetic

def erasedType (m : MethodDecl) : Except SignatureError MethodDescriptor :=
  Signature.parseMethodDescriptor m.descriptor

end MethodDecl

namespace ClassDecl

/-- A class with nothing in it that extends `Object`. -/
def plain (name : String) (access : AccessFlags) : ClassDecl :=
  { name, access, superclass := some Name.objectClass }

def simpleName (c : ClassDecl) : String := Name.simple c.name

def package (c : ClassDecl) : String := Name.package c.name

def isInterface (c : ClassDecl) : Bool := c.access.has .interfaceFlag

def isAnnotation (c : ClassDecl) : Bool := c.access.has .annotationFlag

def isEnum (c : ClassDecl) : Bool := c.access.has .enumFlag

def isModule (c : ClassDecl) : Bool := c.access.has .moduleFlag

def isRecord (c : ClassDecl) : Bool := c.recordParts.isSome

def isSynthetic (c : ClassDecl) : Bool := c.synthetic || c.access.isSynthetic

def isPackageInfo (c : ClassDecl) : Bool := c.simpleName == "package-info"

/-- The superclass that is written out. -/
def visibleSuperclass? (c : ClassDecl) : Option String :=
  c.superclass.filter (· != Name.objectClass)

def method? (c : ClassDecl) (name descriptor : String) : Option MethodDecl :=
  c.methods.find? fun m => m.name == name && m.descriptor == descriptor

def field? (c : ClassDecl) (name descriptor : String) : Option FieldDecl :=
  c.fields.find? fun f => f.name == name && f.descriptor == descriptor

def constructors (c : ClassDecl) : List MethodDecl := c.methods.filter MethodDecl.isConstructor

def recordPart? (c : ClassDecl) (name : String) : Option RecordPart :=
  c.recordParts.bind (·.find? fun p => p.name == name)

def nestingEntries (c : ClassDecl) : List NestingEntry := c.nesting.getD []

/-- The signature, when the class has one. -/
def parsedSignature? (c : ClassDecl) : Option (Except SignatureError ClassSignature) :=
  c.signature.map Signature.parseClassSignature

/-- The signature, when the class has one that can be read. -/
def readableSignature? (c : ClassDecl) : Option ClassSignature :=
  c.parsedSignature?.bind Except.toOption

end ClassDecl

end ClassSketch
