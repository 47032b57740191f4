import ClassSketch.Table
import ClassSketch.Text.Buffer
import ClassSketch.Type.Name

/-! Short names for classes. The first class that asks for a short name gets it, and is imported if
it has to be; others of that name are written in full. -/

namespace ClassSketch

structure Imports where
  package : String
  /-- The top-level class that the file declares. -/
  home : String
  /-- Short names and the top-level classes they stand for. -/
  claimed : List (String × String)
  imported : List String := []
deriving DecidableEq, Inhabited

namespace Imports

def ofRoot (root : String) : Imports :=
  let home := Name.topLevel root
  { package := Name.package root, home, claimed := [(Name.simple home, home)] }

/-- Whether a class outside the file can be named only after an import. -/
def needsImport (i : Imports) (name : String) : Bool :=
  let package := Name.package name
  !package.isEmpty && package != "java/lang" && package != i.package
    && Name.topLevel name != i.home

def grant (name : String) (i : Imports) : Imports :=
  if i.needsImport name then
    { i with imported := insertSorted (Name.dottedPackage (Name.topLevel name)) i.imported }
  else i

/-- The shortest spelling that no other class has. -/
def shortName (name : String) : StateM Imports String := fun i =>
  let top := Name.topLevel name
  let short := Name.simple top
  match i.claimed.lookup short with
  | some holder =>
    if holder = top then (Name.nestedPath name, i.grant name) else (Name.qualified name, i)
  | none =>
    (Name.nestedPath name, ({ i with claimed := (short, top) :: i.claimed } : Imports).grant name)

/-- The import lines and an empty line, or nothing. -/
def write (i : Imports) (b : Text.Buffer) : Text.Buffer :=
  if i.imported.isEmpty then b
  else (i.imported.foldl (fun b name => b.appendLine 0 ("import " ++ name)) b).endLine

/-- The number of lines that are written. -/
def lineCount (i : Imports) : Nat := if i.imported.isEmpty then 0 else i.imported.length + 1

end Imports

end ClassSketch
