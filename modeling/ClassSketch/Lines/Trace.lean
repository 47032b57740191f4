import ClassSketch.Class.Decl
import ClassSketch.Table

/-! Which line each code offset ends up on while text is written. An offset keeps the first line it
is given. -/

namespace ClassSketch

/-- Lines are numbers of 32 bits wherever they leave the library. -/
def lineLimit : Nat := 4294967296

abbrev OffsetTable := Table Nat Nat

structure Trace where
  line : Nat := 0
  offsets : OffsetTable := []
  lineTable : List LineEntry := []
deriving DecidableEq, Inhabited

namespace Trace

def advance (t : Trace) (n : Nat) : Trace := { t with line := t.line + n }

def advance? (t : Trace) (n : Nat) : Option Trace :=
  if t.line + n < lineLimit then some (t.advance n) else none

def moveTo (t : Trace) (line : Nat) : Trace := { t with line }

/-- Puts an offset on the current line, unless it has a line. -/
def mark (t : Trace) (offset : Nat) : Trace :=
  { t with offsets := t.offsets.insertNew offset t.line }

def markAll (t : Trace) (offsets : List Nat) : Trace := offsets.foldl mark t

/-- Takes over the offsets of another trace that have no line here. -/
def absorb (t other : Trace) : Trace := { t with offsets := t.offsets.absorb other.offsets }

/-- The last of the entries that start latest among those not after the offset. -/
def nearest? (offset : Nat) (table : List LineEntry) : Option LineEntry :=
  table.foldl (fun best e =>
    if e.startPc.toNat ≤ offset then
      match best with
      | some b => if b.startPc ≤ e.startPc then some e else best
      | none => some e
    else best) none

/-- The line of the compiled source that stands behind each written line. The least offset on the
line that has an entry decides. -/
def sourceLines (t : Trace) : Table Nat Nat :=
  t.offsets.foldl (fun found (offset, line) =>
    match nearest? offset t.lineTable with
    | some e => found.insertNew line e.line.toNat
    | none => found) []

end Trace

end ClassSketch
