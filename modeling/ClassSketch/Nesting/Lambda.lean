import ClassSketch.Class.Decl
import ClassSketch.Json.Decode

/-! Call sites at which the compiler makes an object of a functional interface: a lambda, whose body
it moves to a synthetic method of the same class, or a reference to a method. -/

namespace ClassSketch

/-- What a method handle does. -/
inductive HandleKind where
  | getField | getStatic | putField | putStatic | invokeVirtual | invokeStatic | invokeSpecial
  | newInvokeSpecial | invokeInterface
deriving DecidableEq, Inhabited

namespace HandleKind

def all : List HandleKind :=
  [getField, getStatic, putField, putStatic, invokeVirtual, invokeStatic, invokeSpecial,
    newInvokeSpecial, invokeInterface]

def code : HandleKind → Nat
  | getField => 1
  | getStatic => 2
  | putField => 3
  | putStatic => 4
  | invokeVirtual => 5
  | invokeStatic => 6
  | invokeSpecial => 7
  | newInvokeSpecial => 8
  | invokeInterface => 9

def ofCode? (n : Nat) : Option HandleKind := all.find? fun k => k.code == n

def unknownMessage (n : Nat) : String := "unknown method handle reference kind " ++ toString n

end HandleKind

structure CallSite where
  interface : String
  /-- The method of the interface, with its erased descriptor. -/
  methodName : String
  methodDescriptor : String
  /-- The method that is called when the object is used. -/
  targetClass : String
  targetMethod : String
  targetDescriptor : String
  handle : HandleKind
  /-- The key of the method in which the site lies. -/
  enclosingMethod : Option String := none
deriving DecidableEq, Inhabited

def CallSite.targetKey (s : CallSite) : String := memberKey s.targetMethod s.targetDescriptor

structure Lambda where
  site : CallSite
  isReference : Bool
  targetStatic : Bool
deriving DecidableEq, Inhabited

/-- A site is a lambda if its target is a synthetic method of the class in which it lies. -/
def Lambda.ofSite (home : ClassDecl) (s : CallSite) : Lambda :=
  { site := s
    isReference :=
      if s.targetClass = home.name then
        match home.method? s.targetMethod s.targetDescriptor with
        | some m => !m.isSynthetic
        | none => true
      else true
    targetStatic := s.handle == .invokeStatic }

namespace CallSite

def load? (j : Json) : Option CallSite := do
  let ms ← j.members? ["interface_type", "method_name", "method_descriptor", "content_class",
    "content_method", "content_descriptor", "invocation", "enclosing_method"]
  let interface ← ms.required? "interface_type" Json.text?
  let methodName ← ms.required? "method_name" Json.text?
  let methodDescriptor ← ms.required? "method_descriptor" Json.text?
  let targetClass ← ms.required? "content_class" Json.text?
  let targetMethod ← ms.required? "content_method" Json.text?
  let targetDescriptor ← ms.required? "content_descriptor" Json.text?
  let handle ← ms.required? "invocation" fun n => (n.natBelow? 256).bind HandleKind.ofCode?
  let enclosingMethod ← ms.optional? "enclosing_method" Json.text?
  return { interface, methodName, methodDescriptor, targetClass, targetMethod, targetDescriptor,
           handle, enclosingMethod }

def store (s : CallSite) : Json :=
  .object [("interface_type", .text s.interface), ("method_name", .text s.methodName),
    ("method_descriptor", .text s.methodDescriptor), ("content_class", .text s.targetClass),
    ("content_method", .text s.targetMethod), ("content_descriptor", .text s.targetDescriptor),
    ("invocation", .ofNat s.handle.code),
    ("enclosing_method", .ofOption .text s.enclosingMethod)]

end CallSite

end ClassSketch
