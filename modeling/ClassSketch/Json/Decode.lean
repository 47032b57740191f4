import ClassSketch.Json.Value
import ClassSketch.Table

/-! Taking values apart. A structure is written as an object, or as an array of its fields in their
order with trailing fields left out. Keys that nobody asks for are skipped, and no field may be
written twice. -/

namespace ClassSketch.Json

abbrev Members := List (String × Json)

/-- The members of a structure with the given fields. -/
def members? (keys : List String) : Json → Option Members
  | .object ms => if ((ms.map (·.1)).filter keys.contains).Nodup then some ms else none
  | .array xs => if xs.length ≤ keys.length then some (keys.zip xs) else none
  | _ => none

def bool? : Json → Option Bool
  | .bool b => some b
  | _ => none

def text? : Json → Option String
  | .text s => some s
  | _ => none

def intBetween? (low high : Int) : Json → Option Int
  | .integer n => if low ≤ n ∧ n ≤ high then some n else none
  | _ => none

def natBelow? (limit : Nat) : Json → Option Nat
  | .integer (.ofNat n) => if n < limit then some n else none
  | _ => none

def word32? : Json → Option Nat := natBelow? 4294967296

def list? {α : Type} (item? : Json → Option α) : Json → Option (List α)
  | .array xs => xs.mapM item?
  | _ => none

def texts? : Json → Option (List String) := list? text?

def optional? {α : Type} (value? : Json → Option α) : Json → Option (Option α)
  | .null => some none
  | x => (value? x).map some

/-- The entries of an object whose values are all of one kind. -/
def entries? {α : Type} (value? : Json → Option α) : Json → Option (Table String α)
  | .object ms => return Table.ofEntries (← ms.mapM fun (k, x) => (value? x).map (k, ·))
  | _ => none

/-- One of several names; an object that holds null under the name stands for the name too. -/
def choice? : Json → Option String
  | .text s => some s
  | .object [(s, .null)] => some s
  | _ => none

namespace Members

def find? (ms : Members) (key : String) : Option Json := ms.lookup key

def required? {α : Type} (ms : Members) (key : String) (value? : Json → Option α) : Option α :=
  (ms.find? key).bind value?

def defaulted? {α : Type} (ms : Members) (key : String) (default : α) (value? : Json → Option α) :
    Option α :=
  match ms.find? key with
  | none => some default
  | some x => value? x

def optional? {α : Type} (ms : Members) (key : String) (value? : Json → Option α) :
    Option (Option α) :=
  ms.defaulted? key none (Json.optional? value?)

end Members

end ClassSketch.Json
