import ClassSketch.Class.Library
import ClassSketch.Warning

/-! Whether a class that is said to be anonymous is. An anonymous class has exactly one supertype,
is created once in the code that encloses it, and is not used as a type there. -/

namespace ClassSketch.Anonymity

def hasOneSupertype (c : ClassDecl) : Bool :=
  match c.interfaces with
  | [] => c.superclass.isSome
  | [_] => c.visibleSuperclass?.isNone
  | _ => false

/-- The method that is said to enclose the class, else any method. -/
def inReach (c : ClassDecl) (m : MethodDecl) : Bool :=
  match c.enclosing.bind (·.methodName) with
  | some name => m.name == name
  | none => true

/-- Creates the class or an array of it. -/
def isCreation : Opcode → Bool
  | .new | .anewarray | .multianewarray => true
  | _ => false

/-- Uses the class in a way in which an anonymous class cannot be used. -/
def isOtherUse : Opcode → Bool
  | .checkcast | .instanceof | .getstatic | .putstatic => true
  | _ => false

structure Uses where
  creations : Nat := 0
  others : Nat := 0
deriving DecidableEq, Inhabited

def Uses.acceptable (u : Uses) : Bool := u.creations ≤ 1 && u.others == 0

def Uses.addCode (name : String) (u : Uses) (code : List Instruction) : Uses :=
  let about := code.filter fun i => i.operand == some name
  { creations := u.creations + (about.filter fun i => isCreation i.opcode).length
    others := u.others + (about.filter fun i => isOtherUse i.opcode).length }

/-- How the code of a class's methods is read. A method may have none, and reading may fail. -/
abbrev Reader := ClassDecl → MethodDecl → Except String (Option (List Instruction))

/-- Goes through the methods and stops at the first one that cannot be read or after which the uses
are too many. -/
def scan (read : Reader) (c enclosing : ClassDecl) : Uses → List MethodDecl → Option Warning
  | _, [] => none
  | u, m :: ms =>
    match read enclosing m with
    | .error reason => some (.unreadableCode m.name enclosing.name reason)
    | .ok none => scan read c enclosing u ms
    | .ok (some code) =>
      let u := u.addCode c.name code
      if u.acceptable then scan read c enclosing u ms
      else some (.anonymousReferences c.name enclosing.name m.name)

/-- What speaks against the class being an anonymous class of `enclosing`, by the code that a reader
gives. -/
def objectionBy? (read : Reader) (c enclosing : ClassDecl) : Option Warning :=
  if hasOneSupertype c then scan read c enclosing {} (enclosing.methods.filter (inReach c))
  else some (.anonymousShape c.name)

def objection? (l : Library) (c enclosing : ClassDecl) : Option Warning :=
  objectionBy? l.code c enclosing

end ClassSketch.Anonymity
