import ClassSketch.Render.Renderer

/-! Bodies that were rendered beforehand, as lines without an indent. -/

namespace ClassSketch

structure PreparedBodies where
  bodies : List (String × String) := []
  initializers : List (String × String) := []
  hidden : List (String × List String) := []
  callSites : List (String × List CallSite) := []
deriving Inhabited

/-- The key of a member among all classes. -/
def fullKey (className name descriptor : String) : String :=
  className ++ " " ++ memberKey name descriptor

def MethodDecl.fullKey (m : MethodDecl) (c : ClassDecl) : String :=
  ClassSketch.fullKey c.name m.name m.descriptor

def FieldDecl.fullKey (f : FieldDecl) (c : ClassDecl) : String :=
  ClassSketch.fullKey c.name f.name f.descriptor

namespace PreparedBodies

/-- Lays out lines one after another. The offsets of the line table are marked one per line. -/
def layOut (site : BodySite) : List String → List LineEntry → Trace → String × Trace
  | [], _, t => ("", t)
  | line :: lines, entries, t =>
    let t := match entries with
      | e :: _ => t.mark e.startPc.toNat
      | [] => t
    let (rest, t) := layOut site lines entries.tail (t.advance 1)
    (site.layout.indentText site.level ++ line ++ site.layout.separator ++ rest, t)

/-- A body that is missing is empty. -/
def render (p : PreparedBodies) (site : BodySite) (t : Trace) : Body × Trace :=
  match p.bodies.lookup (site.method.fullKey site.decl) with
  | none => ({}, t)
  | some source =>
    let (text, t) := layOut site (Text.lines source) site.method.lineTable t
    ({ text }, t)

/-- The same, unless the lines run out of numbers. -/
def render? (p : PreparedBodies) (site : BodySite) (t : Trace) : Option (Body × Trace) :=
  let (body, t) := p.render site t
  if t.line < lineLimit then some (body, t) else none

def renderer (p : PreparedBodies) (σ : Type) : Renderer σ where
  body site t := let (body, t) := p.render site t; return (.ok body, t)
  initializer c f := p.initializers.lookup (f.fullKey c)
  hidden c := (p.hidden.lookup c.name).getD []
  callSites c := (p.callSites.lookup c.name).getD []

def load? (j : Json) : Option PreparedBodies := do
  let ms ← j.members? ["bodies", "initializers", "hidden", "lambdas"]
  let bodies ← ms.defaulted? "bodies" [] (Json.entries? Json.text?)
  let initializers ← ms.defaulted? "initializers" [] (Json.entries? Json.text?)
  let hidden ← ms.defaulted? "hidden" [] (Json.entries? Json.texts?)
  let callSites ← ms.defaulted? "lambdas" [] (Json.entries? (Json.list? CallSite.load?))
  return { bodies, initializers, hidden, callSites }

def store (p : PreparedBodies) : Json :=
  let entries {α : Type} (f : α → Json) (es : List (String × α)) : Json :=
    .object (es.map fun (k, a) => (k, f a))
  .object [("bodies", entries .text p.bodies), ("initializers", entries .text p.initializers),
    ("hidden", entries .texts p.hidden),
    ("lambdas", entries (fun ss => .array (ss.map CallSite.store)) p.callSites)]

end PreparedBodies

end ClassSketch
