import ClassSketch.Lines.LineMap
import ClassSketch.Scope
import ClassSketch.Sketch.Imports

/-! A file under construction. Next to the text stands the number of lines written, from which
bodies take the lines of their offsets. -/

namespace ClassSketch

structure Draft where
  buffer : Text.Buffer
  line : Nat := 0
  lineMap : LineMap := {}
  imports : Imports
  scope : Scope := {}
  /-- Nodes of which some member could not be rendered. -/
  failed : List Nat := []
deriving Inhabited

namespace Draft

def ofRoot (root : String) (l : Text.Layout) : Draft :=
  { buffer := { layout := l }, imports := .ofRoot root }

def append (s : String) (d : Draft) : Draft := { d with buffer := d.buffer.append s }

def appendIndent (level : Nat) (d : Draft) : Draft :=
  { d with buffer := d.buffer.appendIndent level }

def endLine (d : Draft) : Draft := { d with buffer := d.buffer.endLine, line := d.line + 1 }

/-- A line of its own; the text is taken to hold no separator. -/
def writeLine (level : Nat) (s : String) (d : Draft) : Draft :=
  { d with buffer := d.buffer.appendLine level s, line := d.line + 1 }

def writeLines (level : Nat) (ss : List String) (d : Draft) : Draft :=
  ss.foldl (fun d s => d.writeLine level s) d

/-- A remark on what the compiler did. -/
def remark (level : Nat) (s : String) (d : Draft) : Draft := d.writeLine level ("// $FF: " ++ s)

/-- Text that may have any number of lines. -/
def appendText (s : String) (d : Draft) : Draft :=
  { d with
    buffer := d.buffer.append s
    line := d.line + Text.countLines d.buffer.layout.separator s }

/-- Goes back to the text of an earlier draft. Short names that were given out stay given out. -/
def rewind (before d : Draft) : Draft := { d with buffer := before.buffer, line := before.line }

end Draft

end ClassSketch
