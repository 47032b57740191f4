import ClassSketch.Decimal.Float

/-! JSON values. A number that is written as a plain integer and fits in 64 bits is kept as an
integer; every other number keeps its decimal. Members of an object stay in the order in which
they are written. -/

namespace ClassSketch

inductive Json where
  | null
  | bool (value : Bool)
  | integer (value : Int)
  | decimal (value : Decimal)
  | text (value : String)
  | array (items : List Json)
  | object (members : List (String × Json))
  /-- A string in which half of a surrogate pair stands alone, or an object with such a key. Nothing
  can be loaded from it, but where nobody asks for it, it does no harm. -/
  | unpaired
deriving Inhabited

namespace Json

def ofNat (n : Nat) : Json := .integer n

def ofOption {α : Type} (f : α → Json) : Option α → Json
  | none => .null
  | some a => f a

/-- A string, when all that is written in it stands for characters. -/
def ofText? : Option String → Json
  | some s => .text s
  | none => .unpaired

/-- An object, when all its keys are strings of characters. -/
def ofMembers? (ms : List (Option String × Json)) : Json :=
  match ms.mapM fun (k, x) => k.map (·, x) with
  | some ms => .object ms
  | none => .unpaired

def texts (xs : List String) : Json := .array (xs.map .text)

end Json

end ClassSketch
