import ClassSketch.Lines.Trace
import ClassSketch.Nesting.Lambda
import ClassSketch.Text.Buffer

/-! Renderers of code. A sketch writes declarations and asks a renderer for all that lies inside
them: bodies, initial values, names that the class file does not hold, and members to leave out. -/

namespace ClassSketch

/-- What a renderer is told about the body it has to render. -/
structure BodySite where
  decl : ClassDecl
  method : MethodDecl
  /-- The indent of the statements. -/
  level : Nat
  layout : Text.Layout
  /-- The class that is being written; for a lambda it is not the declared one. -/
  currentClass : String

/-- Statements with their indent, each line with its separator. A flagged body is not to be used. -/
structure Body where
  text : String := ""
  flagged : Bool := false
deriving DecidableEq, Inhabited

def Body.isBlank (b : Body) : Bool := Text.isBlankText b.text

inductive BodyFailure where
  | unsupported (method message : String)
  | failed (method message : String)
  | io (message : String)
  /-- The renderer broke down, with a message or without. -/
  | crash (message : Option String)
deriving DecidableEq

namespace BodyFailure

def message : BodyFailure → String
  | unsupported method m => "unsupported construct in " ++ method ++ ": " ++ m
  | failed method m => "reconstruction of " ++ method ++ " failed: " ++ m
  | io m => m
  | crash m => m.getD "non-string panic payload"

end BodyFailure

/-- A renderer with states `σ`. -/
structure Renderer (σ : Type) where
  /-- Renders a body; the trace starts at its first line. -/
  body : BodySite → Trace → StateM σ (Except BodyFailure Body × Trace)
  /-- The offset that belongs to the closing brace. -/
  exitOffset : BodySite → Option Nat := fun _ => none
  /-- The initial value of a field; for an enum constant, its arguments. -/
  initializer : ClassDecl → FieldDecl → Option String := fun _ _ => none
  /-- Keys of members and names of nested classes to leave out. -/
  hidden : ClassDecl → List String := fun _ => []
  /-- The name of the parameter at a position of the descriptor. -/
  parameterName : ClassDecl → MethodDecl → Nat → Option String := fun _ _ _ => none
  /-- Which parameters of a constructor the compiler added. -/
  addedParameters : ClassDecl → MethodDecl → Option (List Bool) := fun _ _ => none
  callSites : ClassDecl → List CallSite := fun _ => []

end ClassSketch
