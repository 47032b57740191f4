import ClassSketch.Text.Letter

/-! New names for classes whose simple name cannot be written in source. -/

namespace ClassSketch

/-- Words that cannot name a class. -/
def reservedWords : List String :=
  ["abstract", "as", "boolean", "break", "byte", "case", "catch", "char", "class", "const",
    "continue", "default", "do", "double", "else", "enum", "extends", "false", "final", "finally",
    "float", "for", "fun", "goto", "if", "implements", "import", "in", "instanceof", "int",
    "interface", "is", "long", "native", "new", "null", "object", "package", "private",
    "protected", "public", "return", "short", "static", "strictfp", "super", "switch",
    "synchronized", "this", "throw", "throws", "transient", "true", "try", "typealias", "typeof",
    "val", "var", "void", "volatile", "when", "while"]

/-- A policy for names: keep them all, number the ones that cannot stand, or follow a rule brought
from outside. The number is that of the last name given out. A rule sees how many questions came
before, a class and its simple name. -/
inductive Renaming where
  | keep
  | numbered (last : Nat)
  | custom (rule : Nat → String → String → Option String) (asked : Nat)
deriving Inhabited

namespace Renaming

def startsName (c : Char) : Bool := Text.isLetter c || c == '_' || c == '$'

def isUsable (name : String) : Bool :=
  match name.toList with
  | [] => false
  | c :: _ => startsName c && !reservedWords.contains name

def wants (r : Renaming) (simple : String) (inner : String := simple) : Bool :=
  match r with
  | keep => false
  | numbered _ => !isUsable simple
  | custom rule asked => (rule asked inner simple).isSome

def numberedName (n : Nat) : String := "class_" ++ toString n

/-- The name that replaces a simple name. -/
def next (simple : String) (r : Renaming) (inner : String := simple) : String × Renaming :=
  match r with
  | keep => (simple, keep)
  | numbered n => (numberedName (n + 1), numbered (n + 1))
  | custom rule asked => ((rule asked inner simple).getD simple, custom rule (asked + 1))

/-- The policy after it let a name stand. -/
def passed : Renaming → Renaming
  | custom rule asked => custom rule (asked + 1)
  | r => r

/-- The name under which a class is declared. -/
def rename (inner simple : String) (r : Renaming) : String × Renaming :=
  if r.wants simple inner then r.next simple inner else (simple, r.passed)

end Renaming

end ClassSketch
