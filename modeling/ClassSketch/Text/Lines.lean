/-! Lines, blank text and occurrences of a separator. -/

namespace ClassSketch.Text

/-- White space in the sense of Unicode. -/
def isBlank (c : Char) : Bool :=
  let n := c.toNat
  (0x09 ≤ n && n ≤ 0x0d) || n == 0x20 || n == 0x85 || n == 0xa0 || n == 0x1680 ||
    (0x2000 ≤ n && n ≤ 0x200a) || n == 0x2028 || n == 0x2029 || n == 0x202f || n == 0x205f ||
    n == 0x3000

def trimChars (cs : List Char) : List Char :=
  ((cs.dropWhile isBlank).reverse.dropWhile isBlank).reverse

def trim (s : String) : String := String.ofList (trimChars s.toList)

def isBlankText (s : String) : Bool := s.toList.all isBlank

/-- The line read so far, in reverse, without a carriage return that stands last. -/
def closeLine : List Char → List Char
  | '\r' :: cs => cs.reverse
  | cs => cs.reverse

def splitLines (line : List Char) : List Char → List (List Char)
  | [] => if line.isEmpty then [] else [line.reverse]
  | c :: cs => if c == '\n' then closeLine line :: splitLines [] cs else splitLines (c :: line) cs

/-- Lines end at a line feed, which a carriage return may precede; nothing after the last line feed
is no line. -/
def lines (s : String) : List String := (splitLines [] s.toList).map String.ofList

/-- Occurrences of `sep` that do not overlap, counted from the left, after `skip` more
characters. -/
def occurrences (sep : List Char) (skip : Nat) : List Char → Nat
  | [] => 0
  | c :: cs =>
    match skip with
    | skip + 1 => occurrences sep skip cs
    | 0 =>
      if sep.isPrefixOf (c :: cs) then occurrences sep (sep.length - 1) cs + 1
      else occurrences sep 0 cs

def countLines (separator text : String) : Nat :=
  if separator.isEmpty then 0 else occurrences separator.toList 0 text.toList

def startsWith (pre s : String) : Bool := pre.toList.isPrefixOf s.toList

def endsWith (post s : String) : Bool := post.toList.isSuffixOf s.toList

def replicate (n : Nat) (s : String) : String := String.join (List.replicate n s)

end ClassSketch.Text
