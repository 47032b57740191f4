import ClassSketch.Class.Codec
import ClassSketch.Command.Arguments
import ClassSketch.Command.FileTree
import ClassSketch.Json.Reader
import ClassSketch.Json.Writer
import ClassSketch.Nesting.Outline
import ClassSketch.Render.Prepared
import ClassSketch.Session

/-! What the command line does, as a function of its arguments and of the files that it reads. -/

namespace ClassSketch

/-- What a run has to say: text to print, or files to write under a folder. -/
inductive Product where
  | printed (text : String)
  | files (dir : Path) (files : List SourceFile)

/-- How a path is read: its text, or why there is none. -/
abbrev Reading := String → Except String String

namespace Request

def readText (read : Reading) (path : String) : Except Failure String :=
  (read path).mapError .io

/-- Reads a file whose text has to load. -/
def readValue {α : Type} (read : Reading) (load? : Json → Option α) (failure : Failure)
    (path : String) : Except Failure α := do
  match (Json.parse? (← readText read path)).bind load? with
  | some a => return a
  | none => throw failure

def readOptions (read : Reading) (i : Inputs) : Except Failure Options := do
  let options ← match i.options with
    | some path =>
      readValue read Options.load? (.invalidArguments "invalid options: malformed") path
    | none => pure {}
  return if i.trustAnonymous then { options with verifyAnonymous := false } else options

def readBodies (read : Reading) : Option String → Except Failure PreparedBodies
  | some path => readValue read PreparedBodies.load? (.json "malformed bodies") path
  | none => return {}

def readClasses (read : Reading) (i : Inputs) : Except Failure Library := do
  let classes ← readValue read (Json.list? ClassDecl.load?) (.json "malformed classes") i.classes
  return .ofList classes

def policy (i : Inputs) : Renaming := if i.rename then .numbered 0 else .keep

/-- Options are read first, then bodies, then classes. -/
def session (read : Reading) (i : Inputs) (bodies : Option String) (mapping : Bool) :
    Except Failure (Session Unit) := do
  let options ← readOptions read i
  let options := if mapping then { options with appendLineMap := true } else options
  let bodies ← readBodies read bodies
  let library ← readClasses read i
  return Session.start ⟨options, bodies.renderer Unit⟩ library () (policy i)

/-- Files are printed with an empty line between them. -/
def printFiles (files : List SourceFile) : String := "\n".intercalate (files.map (·.text))

def sketchFiles (s : Session Unit) : Option String →
    Except Failure (List SourceFile × Session Unit)
  | some name => do
    let (file, s) ← s.write name
    return ([file], s)
  | none => return s.writeAll

def runSketch (read : Reading) (r : SketchRequest) : Except Failure (Product × List Warning) := do
  let s ← session read r.inputs r.bodies r.mapping
  let (files, s) ← sketchFiles s r.className
  let product := match r.out with
    | some dir => .files (.ofString dir) files
    | none => .printed (printFiles files)
  return (product, s.shop.warnings)

def runOutline (read : Reading) (i : Inputs) : Except Failure (Product × List Warning) := do
  let s ← session read i none false
  let trees := s.forest.trees.map ClassTree.outline
  return (.printed ((Json.array trees).pretty 0 ++ "\n"), s.shop.warnings)

def usage : String :=
  "Usage: kdecomp [--log-level LEVEL] [--log-format FORMAT] <emit|tree> --classes FILE [OPTIONS]\n"

def versionText : String := "kdecomp 0.1.0\n"

def run (read : Reading) : Request → Except Failure (Product × List Warning)
  | sketch r => runSketch read r
  | outline i => runOutline read i
  | help => return (.printed usage, [])
  | version => return (.printed versionText, [])

end Request

/-- The path of a source file under a folder. -/
def SourceFile.pathIn (dir : Path) (f : SourceFile) : Path := dir.join (.ofString f.path)

/-- How a run over a file tree ends. -/
structure Ending where
  exit : Nat
  stdout : String := ""
  failure : Option Failure := none
  tree : FileTree

namespace FileTree

def reading (t : FileTree) : Reading := fun path =>
  match t.read? (.ofString path) with
  | some text => .ok text
  | none => .error ("cannot read " ++ path)

/-- Writes files one after another up to the first that cannot be written. -/
def writeAll (dir : Path) : List SourceFile → FileTree → FileTree × Option Failure
  | [], t => (t, none)
  | f :: fs, t =>
    match t.write (f.pathIn dir) f.text with
    | (t, true) => writeAll dir fs t
    | (t, false) => (t, some (.io ("cannot write " ++ (f.pathIn dir).toString)))

/-- The whole command line. -/
def command (t : FileTree) (args : List String) : Ending :=
  match Request.parse args with
  | .error _ => { exit := ExitStatus.invalidArguments.code, tree := t }
  | .ok (request, _) =>
    match request.run t.reading with
    | .error f => { exit := f.status.code, failure := some f, tree := t }
    | .ok (.printed text, _) => { exit := 0, stdout := text, tree := t }
    | .ok (.files dir files, _) =>
      match t.writeAll dir files with
      | (t, none) => { exit := 0, tree := t }
      | (t, some f) => { exit := f.status.code, failure := some f, tree := t }

end FileTree

end ClassSketch
