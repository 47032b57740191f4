/-! The shortest decimal that reads back as a given binary float.

A positive float is `mantissa * 2 ^ exponent`. The reals that round to it form an interval that
reaches half a unit up and half a unit down, or a quarter down when the mantissa is the least of
its binade; the ends belong to it when the mantissa is even. For one digit, then two, and so on,
the two neighbours of the value on the decimal grid are tried, and the first grid with a neighbour
inside the interval gives the digits. Of two such neighbours the nearer one is taken, the upper one
in a tie. All comparisons are exact. -/

namespace ClassSketch.Decimal

structure Binary where
  mantissa : Nat
  exponent : Int
  narrow : Bool
deriving DecidableEq

/-- Digits and a power of ten: the value is `0.digits * 10 ^ point`. -/
structure Digits where
  digits : List Char
  point : Int
deriving DecidableEq

def tenTo (n : Nat) : Nat := Nat.pow 10 n

def twoTo (n : Nat) : Nat := Nat.pow 2 n

/-- How many tens a ratio below one has to be multiplied by to reach one. -/
def tensToOne (den : Nat) : Nat → Nat → Nat
  | 0, _ => 0
  | fuel + 1, num => if den ≤ num then 0 else tensToOne den fuel (num * 10) + 1

def mostTens : Nat := 400

/-- The power of ten just above a positive ratio: `10 ^ (k - 1) ≤ num / den < 10 ^ k`. -/
def pointOf (num den : Nat) : Int :=
  if den ≤ num then ((Nat.toDigits 10 (num / den)).length : Int)
  else 1 - (tensToOne den mostTens num : Int)

namespace Binary

/-- Quarters of the last binary place, as a ratio: the value is `4 * mantissa` of them. -/
def quarters (b : Binary) : Nat × Nat :=
  (twoTo (b.exponent - 2).toNat, twoTo (2 - b.exponent).toNat)

def inside (b : Binary) (below value above x : Nat) : Bool :=
  if b.mantissa % 2 = 0 then below ≤ x && x ≤ above
  else below < x && x < above || x == value

/-- The multiple of `10 ^ place` chosen for the value, when one lies inside the interval. -/
def onGrid? (b : Binary) (place : Int) : Option Nat :=
  let (num, den) := b.quarters
  let unit := num * tenTo (-place).toNat
  let grid := den * tenTo place.toNat
  let value := 4 * b.mantissa * unit
  let above := (4 * b.mantissa + 2) * unit
  let below := (4 * b.mantissa - if b.narrow then 1 else 2) * unit
  let low := value / grid
  let lowIn := b.inside below value above (low * grid)
  let highIn := b.inside below value above ((low + 1) * grid)
  if lowIn && highIn then
    some (if value - low * grid < (low + 1) * grid - value then low else low + 1)
  else if lowIn then some low
  else if highIn then some (low + 1)
  else none

/-- The first grid with a hit, counting digits up from `count`. -/
def firstHit (b : Binary) (point : Int) : Nat → Nat → Nat × Int
  | 0, _ => (0, 0)
  | fuel + 1, count =>
    match b.onGrid? (point - (count : Int)) with
    | some n => (n, point - (count : Int))
    | none => firstHit b point fuel (count + 1)

def dropTrailingZeros (cs : List Char) : List Char :=
  (cs.reverse.dropWhile (· == '0')).reverse

def mostDigits : Nat := 18

def shortest (b : Binary) : Digits :=
  let (num, den) := b.quarters
  let (n, place) := b.firstHit (pointOf (4 * b.mantissa * num) den) mostDigits 1
  let cs := Nat.toDigits 10 n
  ⟨dropTrailingZeros cs, place + (cs.length : Int)⟩

end Binary

/-- How a float format lays out its bits: places of the fraction and of the exponent. -/
structure FloatFormat where
  fractionBits : Nat
  exponentBits : Nat

def doubleFormat : FloatFormat := ⟨52, 11⟩

def singleFormat : FloatFormat := ⟨23, 8⟩

inductive FloatValue where
  | zero
  | finite (magnitude : Binary)
  | infinite
  | undefined
deriving DecidableEq

namespace FloatFormat

def negative (f : FloatFormat) (bits : Nat) : Bool :=
  bits / twoTo (f.fractionBits + f.exponentBits) % 2 = 1

def decode (f : FloatFormat) (bits : Nat) : FloatValue :=
  let fraction := bits % twoTo f.fractionBits
  let exponent := bits / twoTo f.fractionBits % twoTo f.exponentBits
  let bias : Int := (twoTo (f.exponentBits - 1) : Int) - 1 + (f.fractionBits : Int)
  if exponent = twoTo f.exponentBits - 1 then
    if fraction = 0 then .infinite else .undefined
  else if exponent = 0 then
    if fraction = 0 then .zero else .finite ⟨fraction, 1 - bias, false⟩
  else .finite ⟨twoTo f.fractionBits + fraction, (exponent : Int) - bias, fraction = 0⟩

end FloatFormat

end ClassSketch.Decimal
