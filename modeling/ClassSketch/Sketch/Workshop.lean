import ClassSketch.Class.Ancestry
import ClassSketch.Nesting.Node
import ClassSketch.Options
import ClassSketch.Render.Renderer
import ClassSketch.Sketch.Draft
import ClassSketch.Warning

/-! What sketches are made with: the options and the renderer, which stay the same, and the state
that files share. -/

namespace ClassSketch

structure Kit (σ : Type) where
  options : Options
  renderer : Renderer σ

structure Workshop (σ : Type) where
  genealogy : Genealogy
  /-- The state of the renderer. -/
  memory : σ
  warnings : List Warning := []
  /-- Classes that were made ready, in their order. -/
  prepared : List String := []

/-- A workshop in which one file is being drafted. -/
structure Bench (σ : Type) where
  shop : Workshop σ
  draft : Draft

instance {σ : Type} : Scoped (Bench σ) where
  scope b := b.draft.scope
  withScope b scope := { b with draft := { b.draft with scope } }

abbrev SketchM (σ : Type) := StateM (Bench σ)

namespace SketchM

variable {σ : Type}

def edit (f : Draft → Draft) : SketchM σ Unit := modify fun b => { b with draft := f b.draft }

def editWhen (p : Bool) (f : Draft → Draft) : SketchM σ Unit := if p then edit f else pure ()

def warn (w : Warning) : SketchM σ Unit :=
  modify fun b => { b with shop := { b.shop with warnings := b.shop.warnings ++ [w] } }

/-- The spelling of a class's name in this file. -/
def shortName (name : String) : SketchM σ String := fun b =>
  let (s, imports) := Imports.shortName name b.draft.imports
  (s, { b with draft := { b.draft with imports } })

def typeText (t : JType) : SketchM σ String := t.display shortName

def typeTexts : List JType → SketchM σ (List String)
  | [] => return []
  | t :: ts => do
    let first ← typeText t
    let others ← typeTexts ts
    return first :: others

def inGenealogy {α : Type} (act : StateM Genealogy α) : SketchM σ α := fun b =>
  let (a, genealogy) := act b.shop.genealogy
  (a, { b with shop := { b.shop with genealogy } })

def inMemory {α : Type} (act : StateM σ α) : SketchM σ α := fun b =>
  let (a, memory) := act b.shop.memory
  (a, { b with shop := { b.shop with memory } })

/-- Type parameters with their bounds, `<T : A & B, U>`, or nothing. -/
def typeParameterTexts : List TypeParameter → SketchM σ (List String)
  | [] => return []
  | p :: ps => do
    let bounds ← typeTexts p.visibleBounds
    let others ← typeParameterTexts ps
    let text := if bounds.isEmpty then p.name else p.name ++ " : " ++ " & ".intercalate bounds
    return text :: others

def typeParameters (ps : List TypeParameter) : SketchM σ String := do
  let texts ← typeParameterTexts ps
  return if texts.isEmpty then "" else "<" ++ ", ".intercalate texts ++ ">"

end SketchM

/-- An annotation as it is written; a missing `@` is added. -/
def annotationText (a : String) : String := if Text.startsWith "@" a then a else "@" ++ a

/-- The lines that stand before a declaration. -/
def leadLines (deprecated : Bool) (annotations : List String) (remarks : List String) (level : Nat)
    (d : Draft) : Draft :=
  let d := if deprecated then d.writeLine level "/** @deprecated */" else d
  let d := remarks.foldl (fun d s => d.remark level s) d
  d.writeLines level (annotations.map annotationText)

/-- What stands in the place of a body that could not be rendered. -/
def placeholder : String := "// could not be decompiled"

/-- The name of a parameter: from the class file if wanted, from the renderer, or by position. -/
def Kit.parameterName {σ : Type} (k : Kit σ) (c : ClassDecl) (m : MethodDecl) (raw position : Nat) :
    String :=
  let declared := if k.options.useParameterNames then
      ((m.parameterNames.getD [])[raw]?).filter fun n => !n.isEmpty
    else none
  (declared.or (k.renderer.parameterName c m raw)).getD ("param" ++ toString (position + 1))

end ClassSketch
