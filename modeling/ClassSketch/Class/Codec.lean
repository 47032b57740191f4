import ClassSketch.Class.Decl
import ClassSketch.Json.Decode

/-! Declared classes in JSON. Every key is written except flags that are false, and every key but a
name may be left out. -/

namespace ClassSketch

/-- A member that is written only when it is true. -/
def Json.flag (key : String) (value : Bool) : List (String × Json) :=
  if value then [(key, .bool true)] else []

namespace AccessFlags

def load? (j : Json) : Option AccessFlags := (j.natBelow? 65536).map ofNat

def store (a : AccessFlags) : Json := .ofNat a.toNat

end AccessFlags

def loadWord? (j : Json) : Option UInt32 := j.word32?.map UInt32.ofNat

def storeWord (w : UInt32) : Json := .ofNat w.toNat

namespace NestingEntry

def load? (j : Json) : Option NestingEntry := do
  let ms ← j.members? ["inner_name", "outer_name", "simple_name", "access"]
  let inner ← ms.required? "inner_name" Json.text?
  let outer ← ms.optional? "outer_name" Json.text?
  let simpleName ← ms.optional? "simple_name" Json.text?
  let access ← ms.defaulted? "access" {} AccessFlags.load?
  return { inner, outer, simpleName, access }

def store (e : NestingEntry) : Json :=
  .object [("inner_name", .text e.inner), ("outer_name", .ofOption .text e.outer),
    ("simple_name", .ofOption .text e.simpleName), ("access", e.access.store)]

end NestingEntry

namespace EnclosingSite

def load? (j : Json) : Option EnclosingSite := do
  let ms ← j.members? ["class", "method_name", "descriptor"]
  let className ← ms.required? "class" Json.text?
  let methodName ← ms.optional? "method_name" Json.text?
  let descriptor ← ms.optional? "descriptor" Json.text?
  return { className, methodName, descriptor }

def store (e : EnclosingSite) : Json :=
  .object [("class", .text e.className), ("method_name", .ofOption .text e.methodName),
    ("descriptor", .ofOption .text e.descriptor)]

end EnclosingSite

namespace RecordPart

def load? (j : Json) : Option RecordPart := do
  let ms ← j.members? ["name", "descriptor", "signature"]
  let name ← ms.required? "name" Json.text?
  let descriptor ← ms.required? "descriptor" Json.text?
  let signature ← ms.optional? "signature" Json.text?
  return { name, descriptor, signature }

def store (p : RecordPart) : Json :=
  .object [("name", .text p.name), ("descriptor", .text p.descriptor),
    ("signature", .ofOption .text p.signature)]

end RecordPart

namespace LineEntry

def load? (j : Json) : Option LineEntry := do
  let ms ← j.members? ["start_pc", "line"]
  let startPc ← ms.required? "start_pc" loadWord?
  let line ← ms.required? "line" loadWord?
  return { startPc, line }

def store (e : LineEntry) : Json :=
  .object [("start_pc", storeWord e.startPc), ("line", storeWord e.line)]

end LineEntry

namespace Opcode

def all : List Opcode :=
  [checkcast, instanceof, new, anewarray, multianewarray, getstatic, putstatic, getfield, putfield,
    invokevirtual, invokespecial, invokestatic, invokeinterface, invokedynamic, return_, other]

def label : Opcode → String
  | checkcast => "checkcast"
  | instanceof => "instanceof"
  | new => "new"
  | anewarray => "anewarray"
  | multianewarray => "multianewarray"
  | getstatic => "getstatic"
  | putstatic => "putstatic"
  | getfield => "getfield"
  | putfield => "putfield"
  | invokevirtual => "invokevirtual"
  | invokespecial => "invokespecial"
  | invokestatic => "invokestatic"
  | invokeinterface => "invokeinterface"
  | invokedynamic => "invokedynamic"
  | return_ => "return"
  | other => "other"

/-- A name that is not listed stands for `other`. -/
def ofLabel (s : String) : Opcode := (all.find? fun o => o.label == s).getD other

end Opcode

namespace Instruction

def load? (j : Json) : Option Instruction := do
  let ms ← j.members? ["opcode", "offset", "class"]
  let opcode ← ms.required? "opcode" fun o => o.choice?.map Opcode.ofLabel
  let offset ← ms.defaulted? "offset" 0 loadWord?
  let operand ← ms.optional? "class" Json.text?
  return { opcode, offset, operand }

def store (i : Instruction) : Json :=
  .object [("opcode", .text i.opcode.label), ("offset", storeWord i.offset),
    ("class", .ofOption .text i.operand)]

end Instruction

namespace FieldDecl

def load? (j : Json) : Option FieldDecl := do
  let ms ← j.members? ["name", "descriptor", "access", "signature", "constant_value", "synthetic",
    "deprecated", "annotations"]
  let name ← ms.required? "name" Json.text?
  let descriptor ← ms.required? "descriptor" Json.text?
  let access ← ms.defaulted? "access" {} AccessFlags.load?
  let signature ← ms.optional? "signature" Json.text?
  let constant ← ms.optional? "constant_value" Constant.load?
  let synthetic ← ms.defaulted? "synthetic" false Json.bool?
  let deprecated ← ms.defaulted? "deprecated" false Json.bool?
  let annotations ← ms.defaulted? "annotations" [] Json.texts?
  return { name, descriptor, access, signature, constant, synthetic, deprecated, annotations }

def store (f : FieldDecl) : Json :=
  .object ([("name", .text f.name), ("descriptor", .text f.descriptor),
      ("access", f.access.store), ("signature", .ofOption .text f.signature),
      ("constant_value", .ofOption Constant.store f.constant)]
    ++ Json.flag "synthetic" f.synthetic ++ Json.flag "deprecated" f.deprecated
    ++ [("annotations", .texts f.annotations)])

end FieldDecl

namespace MethodDecl

def load? (j : Json) : Option MethodDecl := do
  let ms ← j.members? ["name", "descriptor", "access", "signature", "exceptions", "code",
    "line_numbers", "parameter_names", "annotation_default", "synthetic", "deprecated",
    "annotations"]
  let name ← ms.required? "name" Json.text?
  let descriptor ← ms.required? "descriptor" Json.text?
  let access ← ms.defaulted? "access" {} AccessFlags.load?
  let signature ← ms.optional? "signature" Json.text?
  let exceptions ← ms.defaulted? "exceptions" [] Json.texts?
  let code ← ms.optional? "code" (Json.list? Instruction.load?)
  let lineTable ← ms.defaulted? "line_numbers" [] (Json.list? LineEntry.load?)
  let parameterNames ← ms.optional? "parameter_names" Json.texts?
  let annotationDefault ← ms.optional? "annotation_default" Json.text?
  let synthetic ← ms.defaulted? "synthetic" false Json.bool?
  let deprecated ← ms.defaulted? "deprecated" false Json.bool?
  let annotations ← ms.defaulted? "annotations" [] Json.texts?
  return { name, descriptor, access, signature, exceptions, code, lineTable, parameterNames,
           annotationDefault, synthetic, deprecated, annotations }

def store (m : MethodDecl) : Json :=
  .object ([("name", .text m.name), ("descriptor", .text m.descriptor),
      ("access", m.access.store), ("signature", .ofOption .text m.signature),
      ("exceptions", .texts m.exceptions),
      ("code", .ofOption (fun is => .array (is.map Instruction.store)) m.code),
      ("line_numbers", .array (m.lineTable.map LineEntry.store)),
      ("parameter_names", .ofOption .texts m.parameterNames),
      ("annotation_default", .ofOption .text m.annotationDefault)]
    ++ Json.flag "synthetic" m.synthetic ++ Json.flag "deprecated" m.deprecated
    ++ [("annotations", .texts m.annotations)])

end MethodDecl

namespace ModuleRequirement

def load? (j : Json) : Option ModuleRequirement := do
  let ms ← j.members? ["module", "transitive", "static_phase"]
  let module ← ms.required? "module" Json.text?
  let transitive ← ms.defaulted? "transitive" false Json.bool?
  let compileOnly ← ms.defaulted? "static_phase" false Json.bool?
  return { module, transitive, compileOnly }

def store (r : ModuleRequirement) : Json :=
  .object (("module", .text r.module) :: Json.flag "transitive" r.transitive
    ++ Json.flag "static_phase" r.compileOnly)

end ModuleRequirement

namespace ModulePackage

def load? (j : Json) : Option ModulePackage := do
  let ms ← j.members? ["package", "to"]
  let package ← ms.required? "package" Json.text?
  let targets ← ms.defaulted? "to" [] Json.texts?
  return { package, targets }

def store (p : ModulePackage) : Json :=
  .object [("package", .text p.package), ("to", .texts p.targets)]

end ModulePackage

namespace ModuleService

def load? (j : Json) : Option ModuleService := do
  let ms ← j.members? ["service", "with"]
  let service ← ms.required? "service" Json.text?
  let providers ← ms.required? "with" Json.texts?
  return { service, providers }

def store (s : ModuleService) : Json :=
  .object [("service", .text s.service), ("with", .texts s.providers)]

end ModuleService

namespace ModuleDecl

def load? (j : Json) : Option ModuleDecl := do
  let ms ← j.members? ["name", "open", "requires", "exports", "opens", "uses", "provides"]
  let name ← ms.required? "name" Json.text?
  let isOpen ← ms.defaulted? "open" false Json.bool?
  let requires ← ms.defaulted? "requires" [] (Json.list? ModuleRequirement.load?)
  let exports ← ms.defaulted? "exports" [] (Json.list? ModulePackage.load?)
  let opens ← ms.defaulted? "opens" [] (Json.list? ModulePackage.load?)
  let uses ← ms.defaulted? "uses" [] Json.texts?
  let provides ← ms.defaulted? "provides" [] (Json.list? ModuleService.load?)
  return { name, isOpen, requires, exports, opens, uses, provides }

def store (m : ModuleDecl) : Json :=
  .object (("name", .text m.name) :: Json.flag "open" m.isOpen
    ++ [("requires", .array (m.requires.map ModuleRequirement.store)),
      ("exports", .array (m.exports.map ModulePackage.store)),
      ("opens", .array (m.opens.map ModulePackage.store)),
      ("uses", .texts m.uses),
      ("provides", .array (m.provides.map ModuleService.store))])

end ModuleDecl

namespace ClassDecl

def load? (j : Json) : Option ClassDecl := do
  let ms ← j.members? ["name", "access", "super_class", "interfaces", "fields", "methods",
    "inner_classes", "enclosing_method", "signature", "record_components", "module", "kotlin",
    "synthetic", "deprecated", "annotations", "own"]
  let name ← ms.required? "name" Json.text?
  let access ← ms.defaulted? "access" {} AccessFlags.load?
  let superclass ← ms.optional? "super_class" Json.text?
  let interfaces ← ms.defaulted? "interfaces" [] Json.texts?
  let fields ← ms.defaulted? "fields" [] (Json.list? FieldDecl.load?)
  let methods ← ms.defaulted? "methods" [] (Json.list? MethodDecl.load?)
  let nesting ← ms.optional? "inner_classes" (Json.list? NestingEntry.load?)
  let enclosing ← ms.optional? "enclosing_method" EnclosingSite.load?
  let signature ← ms.optional? "signature" Json.text?
  let recordParts ← ms.optional? "record_components" (Json.list? RecordPart.load?)
  let module ← ms.optional? "module" ModuleDecl.load?
  let metadata ← ms.optional? "kotlin" Metadata.load?
  let synthetic ← ms.defaulted? "synthetic" false Json.bool?
  let deprecated ← ms.defaulted? "deprecated" false Json.bool?
  let annotations ← ms.defaulted? "annotations" [] Json.texts?
  let own ← ms.defaulted? "own" true Json.bool?
  return { name, access, superclass, interfaces, fields, methods, nesting, enclosing, signature,
           recordParts, module, metadata, synthetic, deprecated, annotations, own }

def store (c : ClassDecl) : Json :=
  .object ([("name", .text c.name), ("access", c.access.store),
      ("super_class", .ofOption .text c.superclass), ("interfaces", .texts c.interfaces),
      ("fields", .array (c.fields.map FieldDecl.store)),
      ("methods", .array (c.methods.map MethodDecl.store)),
      ("inner_classes", .ofOption (fun es => .array (es.map NestingEntry.store)) c.nesting),
      ("enclosing_method", .ofOption EnclosingSite.store c.enclosing),
      ("signature", .ofOption .text c.signature),
      ("record_components",
        .ofOption (fun ps => .array (ps.map RecordPart.store)) c.recordParts),
      ("module", .ofOption ModuleDecl.store c.module),
      ("kotlin", .ofOption Metadata.store c.metadata)]
    ++ Json.flag "synthetic" c.synthetic ++ Json.flag "deprecated" c.deprecated
    ++ [("annotations", .texts c.annotations), ("own", .bool c.own)])

end ClassDecl

end ClassSketch
