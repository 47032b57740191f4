import ClassSketch.Json.Decode

/-! Kotlin metadata: what the compiler noted about a class, its properties and its functions. Each
declaration carries a word of 32 bits.

    bit  0      has annotations
    bits 1-3    visibility
    bits 4-5    modality
    bits 6-8    kind of class
    bits 9-     depends on the declaration -/

namespace ClassSketch

structure MetadataWord where
  bits : BitVec 32 := 0#32
deriving DecidableEq, Inhabited

/-- Neighbouring bits of a word, read as a number. -/
structure BitField where
  shift : Nat
  width : Nat
deriving DecidableEq

/-- A field that has to hold a given number. -/
structure BitTest where
  field : BitField
  value : Nat
deriving DecidableEq

namespace BitField

/-- A field lies within the word and leaves room for its mask. -/
def fits (f : BitField) : Bool := f.shift < 32 && f.width < 32

def read (f : BitField) (w : MetadataWord) : Nat :=
  (w.bits >>> f.shift &&& ((1#32 <<< f.width) - 1#32)).toNat

def read? (f : BitField) (w : MetadataWord) : Option Nat := if f.fits then some (f.read w) else none

def visibility : BitField := ⟨1, 3⟩
def modality : BitField := ⟨4, 2⟩
def kind : BitField := ⟨6, 3⟩

end BitField

namespace BitTest

def bit (index : Nat) : BitTest := ⟨⟨index, 1⟩, 1⟩

def holds (t : BitTest) (w : MetadataWord) : Bool := t.field.read w == t.value

/-- The word that has the tested number in its place and nothing else; high bits fall off. -/
def word (t : BitTest) : MetadataWord := ⟨BitVec.ofNat 32 t.value <<< t.field.shift⟩

end BitTest

inductive Visibility where
  | internal | private_ | protected_ | public_
deriving DecidableEq

/-- Words that say private to this instance are private, all that is not listed is public. -/
def MetadataWord.visibility (w : MetadataWord) : Visibility :=
  match BitField.visibility.read w with
  | 0 => .internal
  | 1 | 4 => .private_
  | 2 => .protected_
  | _ => .public_

inductive DeclaredKind where
  | class_ | interface | enumClass | enumEntry | annotationClass | object | companionObject
deriving DecidableEq

def DeclaredKind.ofWord? (w : MetadataWord) : Option DeclaredKind :=
  match BitField.kind.read w with
  | 0 => some .class_
  | 1 => some .interface
  | 2 => some .enumClass
  | 3 => some .enumEntry
  | 4 => some .annotationClass
  | 5 => some .object
  | 6 => some .companionObject
  | _ => none

inductive MetadataKind where
  | class_ | fileFacade | syntheticClass | multiFileFacade | multiFilePart
deriving DecidableEq, Inhabited

namespace MetadataKind

def all : List MetadataKind := [class_, fileFacade, syntheticClass, multiFileFacade, multiFilePart]

def label : MetadataKind → String
  | class_ => "class"
  | fileFacade => "file_facade"
  | syntheticClass => "synthetic_class"
  | multiFileFacade => "multi_file_class_facade"
  | multiFilePart => "multi_file_class_part"

def ofLabel? (s : String) : Option MetadataKind := all.find? fun k => k.label == s

end MetadataKind

structure PropertyInfo where
  name : String
  word : MetadataWord := {}
  fieldName : Option String := none
deriving DecidableEq, Inhabited

def PropertyInfo.backingField (p : PropertyInfo) : String := p.fieldName.getD p.name

structure FunctionInfo where
  name : String
  word : MetadataWord := {}
  descriptor : Option String := none
  receiver : Option String := none
deriving DecidableEq, Inhabited

structure Metadata where
  kind : MetadataKind
  word : MetadataWord := {}
  properties : List PropertyInfo := []
  functions : List FunctionInfo := []
deriving DecidableEq, Inhabited

namespace Metadata

/-- A file facade holds top-level declarations and has no class of its own. -/
def isFileFacade (m : Metadata) : Bool := m.kind == .fileFacade

def declaredKind? (m : Metadata) : Option DeclaredKind :=
  match m.kind with
  | .class_ => DeclaredKind.ofWord? m.word
  | _ => none

def propertyOfField? (m : Metadata) (field : String) : Option PropertyInfo :=
  m.properties.find? fun p => p.backingField == field

/-- The function with the descriptor, else the only one of the name that has no descriptor. -/
def functionOfMethod? (m : Metadata) (name descriptor : String) : Option FunctionInfo :=
  match m.functions.find? fun f => f.name == name && f.descriptor == some descriptor with
  | some f => some f
  | none =>
    match m.functions.filter fun f => f.name == name && f.descriptor.isNone with
    | [f] => some f
    | _ => none

end Metadata

namespace MetadataWord

def load? (j : Json) : Option MetadataWord := j.word32?.map fun n => ⟨BitVec.ofNat 32 n⟩

def store (w : MetadataWord) : Json := .ofNat w.bits.toNat

end MetadataWord

namespace PropertyInfo

def load? (j : Json) : Option PropertyInfo := do
  let ms ← j.members? ["name", "flags", "field_name"]
  let name ← ms.required? "name" Json.text?
  let word ← ms.defaulted? "flags" {} MetadataWord.load?
  let fieldName ← ms.optional? "field_name" Json.text?
  return ⟨name, word, fieldName⟩

def store (p : PropertyInfo) : Json :=
  .object [("name", .text p.name), ("flags", p.word.store),
    ("field_name", .ofOption .text p.fieldName)]

end PropertyInfo

namespace FunctionInfo

def load? (j : Json) : Option FunctionInfo := do
  let ms ← j.members? ["name", "flags", "jvm_descriptor", "receiver"]
  let name ← ms.required? "name" Json.text?
  let word ← ms.defaulted? "flags" {} MetadataWord.load?
  let descriptor ← ms.optional? "jvm_descriptor" Json.text?
  let receiver ← ms.optional? "receiver" Json.text?
  return ⟨name, word, descriptor, receiver⟩

def store (f : FunctionInfo) : Json :=
  .object [("name", .text f.name), ("flags", f.word.store),
    ("jvm_descriptor", .ofOption .text f.descriptor), ("receiver", .ofOption .text f.receiver)]

end FunctionInfo

namespace Metadata

def load? (j : Json) : Option Metadata := do
  let ms ← j.members? ["kind", "flags", "properties", "functions"]
  let kind ← ms.required? "kind" fun k => k.choice?.bind MetadataKind.ofLabel?
  let word ← ms.defaulted? "flags" {} MetadataWord.load?
  let properties ← ms.defaulted? "properties" [] (Json.list? PropertyInfo.load?)
  let functions ← ms.defaulted? "functions" [] (Json.list? FunctionInfo.load?)
  return ⟨kind, word, properties, functions⟩

def store (m : Metadata) : Json :=
  .object [("kind", .text m.kind.label), ("flags", m.word.store),
    ("properties", .array (m.properties.map PropertyInfo.store)),
    ("functions", .array (m.functions.map FunctionInfo.store))]

end Metadata

end ClassSketch
