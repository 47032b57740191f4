import ClassSketch.Json.Value

/-! Writing JSON text, on one line or spread over lines with an indent of two spaces. -/

namespace ClassSketch.Json

def hexDigit (n : Nat) : Char := Nat.digitChar n

def escape (c : Char) : List Char :=
  if c == '"' then ['\\', '"']
  else if c == '\\' then ['\\', '\\']
  else if c == '\n' then ['\\', 'n']
  else if c == '\r' then ['\\', 'r']
  else if c == '\t' then ['\\', 't']
  else if c == '\x08' then ['\\', 'b']
  else if c == '\x0c' then ['\\', 'f']
  else if c.toNat < 0x20 then
    ['\\', 'u', '0', '0', hexDigit (c.toNat / 16), hexDigit (c.toNat % 16)]
  else [c]

def quote (s : String) : String :=
  String.ofList ('"' :: s.toList.flatMap escape ++ ['"'])

/-- A string of half a surrogate pair. -/
def halfPair : String := "\"\\ud800\""

def writeDecimal (d : Decimal) : String :=
  (if d.negative then "-" else "") ++ toString d.digits ++ "e" ++ toString d.exponent

mutual

def compact : Json → String
  | .null => "null"
  | .bool true => "true"
  | .bool false => "false"
  | .integer n => toString n
  | .decimal d => writeDecimal d
  | .text s => quote s
  | .unpaired => halfPair
  | .array xs => "[" ++ compactItems xs ++ "]"
  | .object ms => "\x7b" ++ compactMembers ms ++ "\x7d"

def compactItems : List Json → String
  | [] => ""
  | [x] => compact x
  | x :: xs => compact x ++ "," ++ compactItems xs

def compactMembers : List (String × Json) → String
  | [] => ""
  | [(k, x)] => quote k ++ ":" ++ compact x
  | (k, x) :: ms => quote k ++ ":" ++ compact x ++ "," ++ compactMembers ms

end

def margin (level : Nat) : String := String.ofList (List.replicate (2 * level) ' ')

mutual

/-- The value as it stands at a nesting level; its first line is already indented. -/
def pretty (level : Nat) : Json → String
  | .array [] => "[]"
  | .array xs => "[\n" ++ prettyItems (level + 1) xs ++ "\n" ++ margin level ++ "]"
  | .object [] => "\x7b\x7d"
  | .object ms => "\x7b\n" ++ prettyMembers (level + 1) ms ++ "\n" ++ margin level ++ "\x7d"
  | .null => "null"
  | .bool true => "true"
  | .bool false => "false"
  | .integer n => toString n
  | .decimal d => writeDecimal d
  | .text s => quote s
  | .unpaired => halfPair

def prettyItems (level : Nat) : List Json → String
  | [] => ""
  | [x] => margin level ++ pretty level x
  | x :: xs => margin level ++ pretty level x ++ ",\n" ++ prettyItems level xs

def prettyMembers (level : Nat) : List (String × Json) → String
  | [] => ""
  | [(k, x)] => margin level ++ quote k ++ ": " ++ pretty level x
  | (k, x) :: ms =>
    margin level ++ quote k ++ ": " ++ pretty level x ++ ",\n" ++ prettyMembers level ms

end

end ClassSketch.Json
