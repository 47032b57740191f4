import ClassSketch.Decimal.Notation
import ClassSketch.Json.Decode
import ClassSketch.Text.Quoted
import ClassSketch.Type.Basic

/-! Constant values of static fields, their literals, and their form in JSON. -/

namespace ClassSketch

inductive Constant where
  | int (value : Int32)
  | long (value : Int64)
  | float (value : Float32)
  | double (value : Float)
  | text (value : String)
deriving Inhabited

namespace Constant

def isControl (c : Char) : Bool := c.toNat < 0x20 || (0x7f ≤ c.toNat && c.toNat ≤ 0x9f)

/-- A character literal; code points that cannot be shown are written in hexadecimal. -/
def charLiteral (value : Int32) : String :=
  let n := value.toUInt32.toNat
  let c := Char.ofNat n
  if n = c.toNat && !isControl c then String.ofList ['\'', c, '\'']
  else "'\\u" ++ String.ofList (Text.hexPadded 4 n) ++ "'"

/-- The literal of a constant in a field whose type has the given primitive at its bottom: integers
also stand for booleans and characters. -/
def literal (kind : Option Primitive) : Constant → String
  | int v =>
    match kind with
    | some .boolean => if v = 0 then "false" else "true"
    | some .char => charLiteral v
    | _ => toString v.toInt
  | long v => toString v.toInt ++ "L"
  | float v => Decimal.singleText v ++ "f"
  | double v => Decimal.doubleText v
  | text s => Text.quoted s

def float? : Json → Option Float
  | .integer n => some (if n < 0 then -n.natAbs.toUInt64.toFloat else n.natAbs.toUInt64.toFloat)
  | .decimal d => d.toFloat?
  | _ => none

/-- Integers are rounded once; a decimal is read as a double first. -/
def single? : Json → Option Float32
  | .integer n => some (if n < 0 then -n.natAbs.toUInt64.toFloat32 else n.natAbs.toUInt64.toFloat32)
  | .decimal d => d.toFloat?.map Float.toFloat32
  | _ => none

def load? (j : Json) : Option Constant := do
  let ms ← j.members? ["type", "value"]
  let value ← ms.find? "value"
  match ← ms.required? "type" Json.choice? with
  | "int" => (value.intBetween? (-2147483648) 2147483647).map fun n => int (Int32.ofInt n)
  | "long" =>
    (value.intBetween? (-9223372036854775808) 9223372036854775807).map fun n => long (Int64.ofInt n)
  | "float" => (single? value).map float
  | "double" => (float? value).map double
  | "string" => value.text?.map text
  | _ => none

/-- The decimal of a finite float; other floats have none. -/
def decimalOf (f : Decimal.FloatFormat) (bits : Nat) : Json :=
  match f.decode bits with
  | .zero => .decimal ⟨f.negative bits, 0, 0⟩
  | .finite b =>
    let d := b.shortest
    .decimal ⟨f.negative bits, Nat.ofDigitChars 10 d.digits 0, d.point - (d.digits.length : Int)⟩
  | .infinite | .undefined => .null

def store (c : Constant) : Json :=
  let (kind, value) : String × Json := match c with
    | int v => ("int", .integer v.toInt)
    | long v => ("long", .integer v.toInt)
    | float v => ("float", decimalOf Decimal.singleFormat v.toBits.toNat)
    | double v => ("double", decimalOf Decimal.doubleFormat v.toBits.toNat)
    | text s => ("string", .text s)
  .object [("type", .text kind), ("value", value)]

end Constant

end ClassSketch
