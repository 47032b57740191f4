import ClassSketch.Lines.Trace
import ClassSketch.Text.Buffer

/-! The offsets of all methods in one file. Lines are kept as they were counted from the start of
the class, and shifted by the lines before it whenever they are read. -/

namespace ClassSketch

structure LineMap where
  classes : Table String (Table String OffsetTable) := []
  sourceLines : Table Nat Nat := []
  shift : Nat := 0
deriving Inhabited

namespace LineMap

/-- Files the offsets of a method. The method gets its table even when there are none. -/
def add (m : LineMap) (className key : String) (t : Trace) : LineMap :=
  { m with
    classes := m.classes.alter className fun methods =>
      (methods.getD []).alter key fun table => (table.getD []).absorb t.offsets
    sourceLines := m.sourceLines.absorb t.sourceLines }

def shiftBy (m : LineMap) (lines : Nat) : LineMap := { m with shift := m.shift + lines }

def shifted (m : LineMap) (table : OffsetTable) : OffsetTable := table.mapValues (· + m.shift)

def methodTable? (m : LineMap) (className key : String) : Option OffsetTable :=
  ((m.classes.find? className).bind (·.find? key)).map m.shifted

def tables (m : LineMap) : Table String (Table String OffsetTable) :=
  m.classes.mapValues (·.mapValues m.shifted)

def isEmpty (m : LineMap) : Bool := m.classes.all fun (_, methods) => methods.all (·.2.isEmpty)

def tableFits (table : OffsetTable) : Bool := table.all fun (_, line) => line < lineLimit

/-- All lines of the tables are still numbers of 32 bits. -/
def fits (m : LineMap) : Bool := m.tables.all fun (_, methods) => methods.all (tableFits ·.2)

def sourceLinesFit (m : LineMap) : Bool :=
  m.sourceLines.all fun (line, _) => line + m.shift < lineLimit

open Text (Layout)

def hexColumn (n : Nat) : String :=
  let digits := Nat.toDigits 16 n
  String.ofList (digits ++ List.replicate (6 - digits.length) ' ')

def rowText (l : Layout) (row : Nat × Nat) : String :=
  l.indentText 2 ++ hexColumn row.1 ++ l.indentText 2 ++ toString row.2 ++ l.separator

def methodText (l : Layout) (key : String) (table : OffsetTable) : String :=
  l.indent ++ "method '" ++ key ++ "' \x7b" ++ l.separator ++ String.join (table.map (rowText l))
    ++ l.indent ++ "\x7d" ++ l.separator

/-- A class is listed even when none of its methods has offsets. -/
def classText (l : Layout) (name : String) (methods : Table String OffsetTable) : String :=
  let shown := methods.filter fun (_, table) => !table.isEmpty
  "class '" ++ name ++ "' \x7b" ++ l.separator
    ++ l.separator.intercalate (shown.map fun (key, table) => methodText l key table)
    ++ "\x7d" ++ l.separator ++ l.separator

/-- The map as text, classes first and then the lines of the compiled source. -/
def render (m : LineMap) (l : Layout) : String :=
  String.join (m.tables.map fun (name, methods) => classText l name methods)
    ++ if m.sourceLines.isEmpty then "" else
      "Lines mapping:" ++ l.separator ++ String.join (m.sourceLines.map fun (line, source) =>
        toString source ++ " <-> " ++ toString (line + m.shift) ++ l.separator)

end LineMap

end ClassSketch
