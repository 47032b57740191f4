/-! Tables: lists of keys and values, ascending in the keys. -/

namespace ClassSketch

abbrev Table (κ α : Type) := List (κ × α)

namespace Table

variable {κ α β : Type} [LT κ] [DecidableLT κ] [DecidableEq κ]

def find? (t : Table κ α) (k : κ) : Option α := t.lookup k

def contains (t : Table κ α) (k : κ) : Bool := (t.find? k).isSome

def keys (t : Table κ α) : List κ := t.map (·.1)

/-- Puts `f (some a)` where the key has the value `a`, and `f none` where it is new. -/
def alter (k : κ) (f : Option α → α) : Table κ α → Table κ α
  | [] => [(k, f none)]
  | (k', a) :: t =>
    if k < k' then (k, f none) :: (k', a) :: t
    else if k = k' then (k', f (some a)) :: t
    else (k', a) :: alter k f t

def insert (t : Table κ α) (k : κ) (a : α) : Table κ α := t.alter k fun _ => a

/-- The table of entries of which the last with a key counts. -/
def ofEntries (es : List (κ × α)) : Table κ α := es.foldl (fun t (k, a) => t.insert k a) []

/-- Adds an entry; a key that is there already keeps its value. -/
def insertNew (t : Table κ α) (k : κ) (a : α) : Table κ α := t.alter k fun old => old.getD a

/-- Adds the entries of another table, in their order. -/
def absorb (t other : Table κ α) : Table κ α := other.foldl (fun t (k, a) => t.insertNew k a) t

def mapValues (f : α → β) (t : Table κ α) : Table κ β := t.map fun (k, a) => (k, f a)

end Table

/-- Ascending lists without repetition. -/
def insertSorted {κ : Type} [LT κ] [DecidableLT κ] [DecidableEq κ] (k : κ) : List κ → List κ
  | [] => [k]
  | k' :: ks =>
    if k < k' then k :: k' :: ks else if k = k' then k' :: ks else k' :: insertSorted k ks

/-- Ascending order, equal items in the order in which they come. -/
def sortByKey {α κ : Type} [LT κ] [DecidableLT κ] (key : α → κ) (xs : List α) : List α :=
  xs.mergeSort fun a b => !decide (key b < key a)

end ClassSketch
