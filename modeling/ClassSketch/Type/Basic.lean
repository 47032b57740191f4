import ClassSketch.Text.Lines
import ClassSketch.Type.Name

/-! Types: a primitive, a class with type arguments or a type variable, each with an array depth.
The depth never grows past 255. -/

namespace ClassSketch

inductive Primitive where
  | byte | char | double | float | int | long | short | boolean | void
deriving DecidableEq, Inhabited

namespace Primitive

def all : List Primitive := [byte, char, double, float, int, long, short, boolean, void]

def letter : Primitive → Char
  | byte => 'B'
  | char => 'C'
  | double => 'D'
  | float => 'F'
  | int => 'I'
  | long => 'J'
  | short => 'S'
  | boolean => 'Z'
  | void => 'V'

def ofLetter? (c : Char) : Option Primitive := all.find? fun p => p.letter == c

def name : Primitive → String
  | byte => "byte"
  | char => "char"
  | double => "double"
  | float => "float"
  | int => "int"
  | long => "long"
  | short => "short"
  | boolean => "boolean"
  | void => "void"

/-- What a field of the type holds before anything is stored in it. -/
def defaultLiteral : Primitive → String
  | byte | short | int => "0"
  | long => "0L"
  | float => "0.0f"
  | double => "0.0"
  | char => "'\\u0000'"
  | boolean => "false"
  | void => ""

end Primitive

mutual

inductive JType where
  | prim (kind : Primitive) (depth : Nat)
  | named (name : String) (args : List TypeArg) (depth : Nat)
  | var (name : String) (depth : Nat)

/-- A type argument; `upper` and `lower` are bounded wildcards. -/
inductive TypeArg where
  | wildcard
  | exact (type : JType)
  | upper (bound : JType)
  | lower (bound : JType)

end

instance : Inhabited JType := ⟨.prim .void 0⟩

abbrev Substitution := List (String × JType)

def TypeArg.bound? : TypeArg → Option JType
  | .wildcard => none
  | .exact t | .upper t | .lower t => some t

namespace JType

def ofClass (name : String) : JType := .named name [] 0

def object : JType := ofClass Name.objectClass

def depth : JType → Nat
  | prim _ d | named _ _ d | var _ d => d

def withDepth (d : Nat) : JType → JType
  | prim p _ => prim p d
  | named n args _ => named n args d
  | var v _ => var v d

def depthLimit : Nat := 255

def arrayOf (t : JType) (extra : Nat) : JType := t.withDepth (min depthLimit (t.depth + extra))

def element? (t : JType) : Option JType :=
  match t.depth with
  | 0 => none
  | d + 1 => some (t.withDepth d)

def isVoid : JType → Bool
  | prim .void 0 => true
  | _ => false

def className? : JType → Option String
  | named n _ 0 => some n
  | _ => none

def isObject (t : JType) : Bool := t.className? == some Name.objectClass

def variableName? : JType → Option String
  | var v 0 => some v
  | _ => none

/-- The type arguments, of an array those of its element. -/
def args : JType → List TypeArg
  | named _ as _ => as
  | _ => []

/-- The primitive at the bottom of the type, whatever its depth. -/
def primitive? : JType → Option Primitive
  | prim p _ => some p
  | _ => none

def base : JType → String
  | prim p _ => String.ofList [p.letter]
  | named n _ _ => "L" ++ n ++ ";"
  | var _ _ => "L" ++ Name.objectClass ++ ";"

/-- The erased descriptor; a type variable erases to `Object`. -/
def descriptor (t : JType) : String := Text.replicate t.depth "[" ++ t.base

mutual

/-- Replaces type variables everywhere in a type; those without a value stay. -/
def substitute (s : Substitution) : JType → JType
  | prim p d => prim p d
  | named n as d => named n (substituteArgs s as) d
  | var v d =>
    match s.lookup v with
    | some t => t.arrayOf d
    | none => var v d

def substituteArg (s : Substitution) : TypeArg → TypeArg
  | .wildcard => .wildcard
  | .exact t => .exact (substitute s t)
  | .upper t => .upper (substitute s t)
  | .lower t => .lower (substitute s t)

def substituteArgs (s : Substitution) : List TypeArg → List TypeArg
  | [] => []
  | a :: as => substituteArg s a :: substituteArgs s as

end

mutual

/-- Every class named in a type, outermost first. -/
def classes : JType → List String
  | prim _ _ | var _ _ => []
  | named n as _ => n :: argsClasses as

def argClasses : TypeArg → List String
  | .wildcard => []
  | .exact t | .upper t | .lower t => classes t

def argsClasses : List TypeArg → List String
  | [] => []
  | a :: as => argClasses a ++ argsClasses as

end

def brackets (d : Nat) : String := Text.replicate d "[]"

mutual

/-- The type in source form. `spell` gives the text of a class name and may keep a record of it. -/
def display {m : Type → Type} [Monad m] (spell : String → m String) : JType → m String
  | prim p d => return p.name ++ brackets d
  | var v d => return v ++ brackets d
  | named n as d => do
    let name ← spell n
    let args ← displayArgs spell as
    return name ++ (if args.isEmpty then "" else "<" ++ ", ".intercalate args ++ ">") ++ brackets d

def displayArg {m : Type → Type} [Monad m] (spell : String → m String) : TypeArg → m String
  | .wildcard => return "?"
  | .exact t => display spell t
  | .upper t => do return "? extends " ++ (← display spell t)
  | .lower t => do return "? super " ++ (← display spell t)

def displayArgs {m : Type → Type} [Monad m] (spell : String → m String) :
    List TypeArg → m (List String)
  | [] => return []
  | a :: as => do
    let first ← displayArg spell a
    let others ← displayArgs spell as
    return first :: others

end

def simpleText (t : JType) : String := Id.run (t.display fun n => pure (Name.nestedPath n))

def qualifiedText (t : JType) : String := Id.run (t.display fun n => pure (Name.qualified n))

end JType

end ClassSketch
