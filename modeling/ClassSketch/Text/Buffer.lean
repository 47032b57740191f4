import ClassSketch.Text.Lines

/-! Text under construction. A buffer knows its unit of indent and its line separator; positions in
it are counted in bytes of UTF-8 and are valid only between characters. -/

namespace ClassSketch.Text

/-- Cuts a text at a byte position, when that position lies between two characters. -/
def cutAt? : Nat → List Char → Option (List Char × List Char)
  | 0, cs => some ([], cs)
  | _ + 1, [] => none
  | n + 1, c :: cs =>
    if c.utf8Size ≤ n + 1 then (cutAt? (n + 1 - c.utf8Size) cs).map fun (a, b) => (c :: a, b)
    else none

structure Layout where
  indent : String := "   "
  separator : String := "\n"
deriving DecidableEq, Inhabited

def Layout.indentText (l : Layout) (level : Nat) : String := replicate level l.indent

structure Buffer where
  text : String := ""
  layout : Layout := {}
deriving DecidableEq, Inhabited

namespace Buffer

def size (b : Buffer) : Nat := b.text.utf8ByteSize

def isEmpty (b : Buffer) : Bool := b.text.isEmpty

def append (b : Buffer) (s : String) : Buffer := { b with text := b.text ++ s }

def appendIndent (b : Buffer) (level : Nat) : Buffer := b.append (b.layout.indentText level)

def endLine (b : Buffer) : Buffer := b.append b.layout.separator

def appendLine (b : Buffer) (level : Nat) (s : String) : Buffer :=
  ((b.appendIndent level).append s).endLine

/-- An empty buffer with the same layout. -/
def fork (b : Buffer) : Buffer := { layout := b.layout }

/-- Keeps the first `size` bytes; a buffer that is not longer stays as it is. -/
def truncate? (b : Buffer) (size : Nat) : Option Buffer :=
  if b.size ≤ size then some b
  else (cutAt? size b.text.toList).map fun (before, _) => { b with text := String.ofList before }

def lineCount (b : Buffer) : Nat := countLines b.layout.separator b.text

/-- Separators after a byte position; none when the position is not valid. -/
def lineCountFrom (b : Buffer) (start : Nat) : Nat :=
  match cutAt? start b.text.toList with
  | some (_, rest) => countLines b.layout.separator (String.ofList rest)
  | none => 0

end Buffer

end ClassSketch.Text
