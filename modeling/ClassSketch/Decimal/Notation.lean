import ClassSketch.Decimal.Shortest

/-! How the digits of a float are laid out in a literal. -/

namespace ClassSketch.Decimal

/-- Values from `10 ^ (least - 1)` up to but not including `10 ^ most` are written positionally. -/
structure Notation where
  least : Int
  most : Int

/-- Literals are positional from 0.0001 up to 10 ^ 16. -/
def literalNotation : Notation := ⟨-3, 16⟩

def zeros (n : Nat) : List Char := List.replicate n '0'

def positional (d : Digits) : List Char :=
  if d.point ≤ 0 then '0' :: '.' :: zeros (-d.point).toNat ++ d.digits
  else if (d.digits.length : Int) ≤ d.point then
    d.digits ++ zeros (d.point.toNat - d.digits.length) ++ ['.', '0']
  else d.digits.take d.point.toNat ++ '.' :: d.digits.drop d.point.toNat

def scientific (d : Digits) : List Char :=
  let tail := match d.digits with
    | [] => []
    | [c] => [c]
    | c :: cs => c :: '.' :: cs
  tail ++ 'e' :: (toString (d.point - 1)).toList

def Notation.write (n : Notation) (d : Digits) : List Char :=
  if n.least ≤ d.point && d.point ≤ n.most then positional d else scientific d

def writeMagnitude (n : Notation) : FloatValue → List Char
  | .zero => ['0', '.', '0']
  | .finite b => n.write b.shortest
  | .infinite => ['i', 'n', 'f']
  | .undefined => ['N', 'a', 'N']

/-- The text of the float with the given bits. -/
def floatText (f : FloatFormat) (bits : Nat) : String :=
  let value := f.decode bits
  let sign := if f.negative bits && value ≠ .undefined then ['-'] else []
  String.ofList (sign ++ writeMagnitude literalNotation value)

def doubleText (x : Float) : String := floatText doubleFormat x.toBits.toNat

def singleText (x : Float32) : String := floatText singleFormat x.toBits.toNat

end ClassSketch.Decimal
