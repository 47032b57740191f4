/-! Decimals as they stand in a text: a sign, the leading digits that fit in 64 bits, and a power of
ten. A decimal is read as a binary float by scaling its digits with one rounded power of ten, so
the result may differ from the nearest float in the last place. -/

namespace ClassSketch

structure Decimal where
  negative : Bool
  digits : Nat
  exponent : Int
deriving DecidableEq, Inhabited

namespace Decimal

def digitLimit : Nat := 18446744073709551616

/-- Takes one more digit, or leaves the digits alone when they would no longer fit. -/
def push? (digits digit : Nat) : Option Nat :=
  if digits * 10 + digit < digitLimit then some (digits * 10 + digit) else none

def powerOfTen (n : Nat) : Float := Float.ofScientific 1 false n

/-- The magnitude, or nothing when it is too large for a float. -/
def magnitude? (d : Decimal) : Option Float :=
  let f := d.digits.toUInt64.toFloat
  if 0 ≤ d.exponent then
    if d.exponent ≤ 308 then
      let r := f * powerOfTen d.exponent.toNat
      if r.isInf then none else some r
    else if d.digits = 0 then some f else none
  else if -308 ≤ d.exponent then some (f / powerOfTen (-d.exponent).toNat)
  else if -616 ≤ d.exponent then some (f / powerOfTen 308 / powerOfTen (-d.exponent - 308).toNat)
  else some 0

def toFloat? (d : Decimal) : Option Float :=
  d.magnitude?.map fun f => if d.negative then -f else f

end Decimal

end ClassSketch
