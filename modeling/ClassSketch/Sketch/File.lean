import ClassSketch.Nesting.Preparation
import ClassSketch.Sketch.Lambda

/-! A whole file: the package, the imports, the class, and the line map if it is wanted. -/

namespace ClassSketch

structure SourceFile where
  /-- The class that the file is for. -/
  name : String
  text : String
  /-- Lines of the file, counted from zero, by class, method and offset. -/
  tables : Table String (Table String OffsetTable)
  /-- Some body could not be rendered. -/
  failed : Bool
deriving Inhabited

def SourceFile.path (f : SourceFile) : String := f.name ++ ".kt"

/-- What a `package-info` class says: annotations and the package. -/
def Draft.writePackage (c : ClassDecl) (d : Draft) : Draft :=
  let d := d.writeLines 0 (c.annotations.map annotationText)
  if c.package.isEmpty then d
  else d.writeLine 0 ("package " ++ Name.dottedPackage c.package)

/-- The lines before the class. -/
def Draft.fileHead (c : ClassDecl) (d : Draft) : Text.Buffer :=
  let head := d.buffer.fork
  let head := if d.imports.package.isEmpty || c.isPackageInfo || c.isModule then head
    else (head.appendLine 0 ("package " ++ Name.dottedPackage d.imports.package)).endLine
  d.imports.write head

/-- Puts the parts of a file together. -/
def Draft.finish (o : Options) (c : ClassDecl) (d : Draft) : String × LineMap :=
  let head := d.fileHead c
  let map := d.lineMap.shiftBy head.lineCount
  let text := head.text ++ d.buffer.text
  if o.appendLineMap && !map.isEmpty then
    (text ++ o.layout.separator ++ map.render o.layout, map)
  else (text, map)

/-- Adds a node for each call site of each class. -/
def ClassTree.discoverLambdas {σ : Type} (r : Renderer σ) (t : ClassTree) : ClassTree :=
  let homes := t.nodes.filter fun n => !n.isLambda
  homes.foldl (fun t home =>
    (r.callSites home.decl).zipIdx.foldl (fun t (s, i) => (t.addLambda home i s).2) t) t

namespace Workshop

variable {σ : Type}

def prepare (classes : List ClassDecl) (shop : Workshop σ) : Workshop σ :=
  { shop with prepared := shop.prepared ++ classes.map (·.name) }

def release (names : List String) (shop : Workshop σ) : Workshop σ :=
  { shop with genealogy :=
      { shop.genealogy with library := names.foldl Library.release shop.genealogy.library } }

/-- Writes the file of a tree. The tree comes back with its failures marked and nothing added. -/
def writeFile (k : Kit σ) (t : ClassTree) (shop : Workshop σ) :
    SourceFile × ClassTree × Workshop σ :=
  let root := t.root
  let t := t.clearFailures.discoverLambdas k.renderer
  let shop := shop.prepare t.preparedClasses
  let (draft, shop) := if root.decl.isPackageInfo then
      ((Draft.ofRoot root.name k.options.layout).writePackage root.decl, shop)
    else shop.draftClass k root.name 0 t.tree
  let (text, map) := draft.finish k.options root.decl
  let t := t.markFailed draft.failed
  let file : SourceFile := ⟨root.name, text, map.tables, t.hasFailure⟩
  let t := t.detach
  (file, t, shop.release (t.nodes.map (·.name)))

/-- Writes the files of trees, one after another. -/
def writeFiles (k : Kit σ) : List ClassTree → Workshop σ → List SourceFile × Workshop σ
  | [], shop => ([], shop)
  | t :: ts, shop =>
    let (file, _, shop) := shop.writeFile k t
    let (files, shop) := writeFiles k ts shop
    (file :: files, shop)

end Workshop

end ClassSketch
