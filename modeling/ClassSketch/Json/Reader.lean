import ClassSketch.Json.Value

/-! Reading JSON text. Every reader takes the characters that are left and gives back what it read
together with the rest. Values nest, so the reader of values counts down from twice the length of
the text: it takes two steps for a character at most, and what is left of the count is always more
than what is left of the text. -/

namespace ClassSketch.Json

def isBlank (c : Char) : Bool := c == ' ' || c == '\n' || c == '\t' || c == '\r'

def skipBlanks (cs : List Char) : List Char := cs.dropWhile isBlank

def digit? (c : Char) : Option Nat :=
  if '0'.toNat ≤ c.toNat && c.toNat ≤ '9'.toNat then some (c.toNat - '0'.toNat) else none

def hexDigit? (c : Char) : Option Nat :=
  if '0'.toNat ≤ c.toNat && c.toNat ≤ '9'.toNat then some (c.toNat - '0'.toNat)
  else if 'a'.toNat ≤ c.toNat && c.toNat ≤ 'f'.toNat then some (c.toNat - 'a'.toNat + 10)
  else if 'A'.toNat ≤ c.toNat && c.toNat ≤ 'F'.toNat then some (c.toNat - 'A'.toNat + 10)
  else none

def readUnit : List Char → Option (Nat × List Char)
  | a :: b :: c :: d :: rest => do
    let a ← hexDigit? a
    let b ← hexDigit? b
    let c ← hexDigit? c
    let d ← hexDigit? d
    return (((a * 16 + b) * 16 + c) * 16 + d, rest)
  | _ => none

def isHighHalf (u : Nat) : Bool := 0xD800 ≤ u && u ≤ 0xDBFF

def isLowHalf (u : Nat) : Bool := 0xDC00 ≤ u && u ≤ 0xDFFF

/-- The low half of a surrogate pair, when it comes next. -/
def readLowHalf : List Char → Option (Nat × List Char)
  | '\\' :: 'u' :: rest => (readUnit rest).filter fun (v, _) => isLowHalf v
  | _ => none

/-- A character written as one 16-bit unit, or as two that form a surrogate pair; no character for
half of a pair. -/
def readEscapedUnits (cs : List Char) : Option (Option Char × List Char) := do
  let (u, rest) ← readUnit cs
  if isHighHalf u then
    match readLowHalf rest with
    | some (v, rest) =>
      return (some (Char.ofNat (0x10000 + (u - 0xD800) * 0x400 + (v - 0xDC00))), rest)
    | none => return (none, rest)
  else if isLowHalf u then return (none, rest)
  else return (some (Char.ofNat u), rest)

def readEscape : List Char → Option (Option Char × List Char)
  | '"' :: rest => some (some '"', rest)
  | '\\' :: rest => some (some '\\', rest)
  | '/' :: rest => some (some '/', rest)
  | 'b' :: rest => some (some '\x08', rest)
  | 'f' :: rest => some (some '\x0c', rest)
  | 'n' :: rest => some (some '\n', rest)
  | 'r' :: rest => some (some '\r', rest)
  | 't' :: rest => some (some '\t', rest)
  | 'u' :: rest => readEscapedUnits rest
  | _ => none

/-- The characters of a string up to its closing quote, the opening one already read; none once half
of a pair was met. -/
def readChars : Nat → Option (List Char) → List Char → Option (Option (List Char) × List Char)
  | 0, _, _ => none
  | _ + 1, _, [] => none
  | fuel + 1, acc, c :: rest =>
    if c == '"' then some (acc.map List.reverse, rest)
    else if c == '\\' then
      match readEscape rest with
      | some (d, rest) => readChars fuel (do return (← d) :: (← acc)) rest
      | none => none
    else if c.toNat < 0x20 then none
    else readChars fuel (acc.map (c :: ·)) rest

def readString (fuel : Nat) (cs : List Char) : Option (Option String × List Char) :=
  match readChars fuel (some []) cs with
  | some (s, rest) => some (s.map String.ofList, rest)
  | none => none

/-- Digits before the point: the leading ones that fit, how many were left out, and the rest. -/
def readWhole (digits left : Nat) : List Char → Nat × Nat × List Char
  | [] => (digits, left, [])
  | c :: rest =>
    match digit? c with
    | none => (digits, left, c :: rest)
    | some d =>
      match if left = 0 then Decimal.push? digits d else none with
      | some digits => readWhole digits 0 rest
      | none => readWhole digits (left + 1) rest

/-- Digits after the point: those that fit, how many were taken, how many were seen, and
the rest. -/
def readFraction (digits taken seen : Nat) (full : Bool) : List Char → Nat × Nat × Nat × List Char
  | [] => (digits, taken, seen, [])
  | c :: rest =>
    match digit? c with
    | none => (digits, taken, seen, c :: rest)
    | some d =>
      match if full then none else Decimal.push? digits d with
      | some digits => readFraction digits (taken + 1) (seen + 1) false rest
      | none => readFraction digits taken (seen + 1) true rest

def readExponentDigits (acc seen : Nat) : List Char → Nat × Nat × List Char
  | [] => (acc, seen, [])
  | c :: rest =>
    match digit? c with
    | none => (acc, seen, c :: rest)
    | some d => readExponentDigits (acc * 10 + d) (seen + 1) rest

def readExponent (cs : List Char) : Option (Int × List Char) :=
  let (negative, cs) := match cs with
    | '+' :: rest => (false, rest)
    | '-' :: rest => (true, rest)
    | _ => (false, cs)
  match readExponentDigits 0 0 cs with
  | (_, 0, _) => none
  | (e, _, rest) => some (if negative then -(e : Int) else (e : Int), rest)

def leastInteger : Int := -9223372036854775808

/-- What follows the digits before the point. -/
def readTail (negative : Bool) (digits left : Nat) : List Char → Option (Json × List Char)
  | '.' :: rest =>
    match readFraction digits 0 0 false rest with
    | (_, _, 0, _) => none
    | (digits, taken, _, rest) =>
      let exponent : Int := (left : Int) - (taken : Int)
      match rest with
      | 'e' :: tail | 'E' :: tail => do
        let (e, rest) ← readExponent tail
        return (.decimal ⟨negative, digits, exponent + e⟩, rest)
      | _ => some (.decimal ⟨negative, digits, exponent⟩, rest)
  | 'e' :: rest | 'E' :: rest => do
    let (e, rest) ← readExponent rest
    return (.decimal ⟨negative, digits, (left : Int) + e⟩, rest)
  | rest =>
    if left = 0 && !negative then some (.integer digits, rest)
    else if left = 0 && digits ≠ 0 && decide (leastInteger ≤ -(digits : Int)) then
      some (.integer (-(digits : Int)), rest)
    else some (.decimal ⟨negative, digits, left⟩, rest)

/-- A number without its sign; a leading zero stands alone. -/
def readMagnitude (negative : Bool) : List Char → Option (Json × List Char)
  | '0' :: c :: rest =>
    match digit? c with
    | some _ => none
    | none => readTail negative 0 0 (c :: rest)
  | cs =>
    match cs.head?.bind digit? with
    | none => none
    | some _ =>
      let (digits, left, rest) := readWhole 0 0 cs
      readTail negative digits left rest

def readNumber : List Char → Option (Json × List Char)
  | '-' :: rest => readMagnitude true rest
  | cs => readMagnitude false cs

mutual

def readValue : Nat → List Char → Option (Json × List Char)
  | 0, _ => none
  | fuel + 1, cs =>
    match skipBlanks cs with
    | 'n' :: 'u' :: 'l' :: 'l' :: rest => some (.null, rest)
    | 't' :: 'r' :: 'u' :: 'e' :: rest => some (.bool true, rest)
    | 'f' :: 'a' :: 'l' :: 's' :: 'e' :: rest => some (.bool false, rest)
    | '"' :: rest => (readString fuel rest).map fun (s, rest) => (.ofText? s, rest)
    | '[' :: rest =>
      match skipBlanks rest with
      | ']' :: rest => some (.array [], rest)
      | rest => (readItems fuel rest).map fun (xs, rest) => (.array xs, rest)
    | '\x7b' :: rest =>
      match skipBlanks rest with
      | '\x7d' :: rest => some (.object [], rest)
      | rest => (readMembers fuel rest).map fun (ms, rest) => (.ofMembers? ms, rest)
    | cs => readNumber cs

/-- One or more values divided by commas, up to the closing bracket. -/
def readItems : Nat → List Char → Option (List Json × List Char)
  | 0, _ => none
  | fuel + 1, cs => do
    let (x, rest) ← readValue fuel cs
    match skipBlanks rest with
    | ',' :: rest =>
      let (xs, rest) ← readItems fuel rest
      return (x :: xs, rest)
    | ']' :: rest => return ([x], rest)
    | _ => none

/-- One or more members divided by commas, up to the closing brace. -/
def readMembers : Nat → List Char → Option (List (Option String × Json) × List Char)
  | 0, _ => none
  | fuel + 1, cs => do
    match skipBlanks cs with
    | '"' :: rest =>
      let (key, rest) ← readString fuel rest
      match skipBlanks rest with
      | ':' :: rest =>
        let (x, rest) ← readValue fuel rest
        match skipBlanks rest with
        | ',' :: rest =>
          let (ms, rest) ← readMembers fuel rest
          return ((key, x) :: ms, rest)
        | '\x7d' :: rest => return ([(key, x)], rest)
        | _ => none
      | _ => none
    | _ => none

end

/-- A text that holds one value and nothing after it but blanks. -/
def parse? (s : String) : Option Json :=
  let cs := s.toList
  match readValue (2 * cs.length + 2) cs with
  | some (v, rest) => if (skipBlanks rest).isEmpty then some v else none
  | none => none

end ClassSketch.Json
