import ClassSketch.Sketch.Field
import ClassSketch.Sketch.Header
import ClassSketch.Sketch.Method
import ClassSketch.Sketch.Module

/-! Classes with their members. Only member classes are written inside their class: anonymous and
local classes and lambdas belong to the bodies that create them. -/

namespace ClassSketch

namespace TypeSketch

variable {σ : Type}

/-- The bodies of lambdas are written where the lambda is. -/
def lambdaTargets (children : List (Tree ClassNode)) : List String :=
  children.filterMap fun t =>
    match t.value.lambda with
    | some l => if l.isReference then none else some l.site.targetKey
    | none => none

def isShownMember (o : Options) (hidden : List String) (n : ClassNode) : Bool :=
  n.kind == .member && !((n.access.isSynthetic || n.decl.isSynthetic) && o.hideSynthetic)
    && !hidden.contains n.name

def closingBrace (n : ClassNode) (level : Nat) (d : Draft) : Draft :=
  let d := (d.appendIndent level).append "\x7d"
  if n.kind == .anonymous then d else d.endLine

def moduleOf? (c : ClassDecl) : Option ModuleDecl := if c.isModule then c.module else none

def isFacade (c : ClassDecl) : Bool := c.metadata.any Metadata.isFileFacade

mutual

/-- A class and its member classes. The members of a file facade stand by themselves. -/
def sketch (k : Kit σ) (level : Nat) : Tree ClassNode → SketchM σ Unit
  | .node n children =>
    inScope (.ofClass n.name) do
      match moduleOf? n.decl with
      | some m => SketchM.edit (ModuleSketch.write n.decl.annotations m)
      | none =>
        let hidden := k.renderer.hidden n.decl
        if isFacade n.decl then
          let content ← FieldSketch.sketchAll k hidden n.decl level
          let content ← MethodSketch.sketchAll k n (hidden ++ lambdaTargets children) level content
          sketchMembers k hidden level content children
        else
          Header.sketch k n level
          let content ← FieldSketch.sketchAll k hidden n.decl (level + 1)
          let content ←
            MethodSketch.sketchAll k n (hidden ++ lambdaTargets children) (level + 1) content
          sketchMembers k hidden (level + 1) content children
          SketchM.edit (closingBrace n level)

/-- The member classes, with an empty line before each one that follows something. -/
def sketchMembers (k : Kit σ) (hidden : List String) (level : Nat) (content : Bool) :
    List (Tree ClassNode) → SketchM σ Unit
  | [] => return
  | t :: ts => do
    if isShownMember k.options hidden t.value then
      SketchM.editWhen content Draft.endLine
      sketch k level t
      sketchMembers k hidden level true ts
    else sketchMembers k hidden level content ts

end

end TypeSketch

end ClassSketch
