/-! Finite trees with a value at every node. -/

namespace ClassSketch

inductive Tree (α : Type) where
  | node (value : α) (children : List (Tree α))

namespace Tree

variable {α β : Type}

instance [Inhabited α] : Inhabited (Tree α) := ⟨.node default []⟩

def leaf (a : α) : Tree α := .node a []

def value : Tree α → α
  | node a _ => a

def children : Tree α → List (Tree α)
  | node _ ts => ts

mutual

/-- The values, each before those below it. -/
def toList : Tree α → List α
  | node a ts => a :: listToList ts

def listToList : List (Tree α) → List α
  | [] => []
  | t :: ts => t.toList ++ listToList ts

end

def size (t : Tree α) : Nat := t.toList.length

mutual

def map (f : α → β) : Tree α → Tree β
  | node a ts => node (f a) (mapAll f ts)

def mapAll (f : α → β) : List (Tree α) → List (Tree β)
  | [] => []
  | t :: ts => t.map f :: mapAll f ts

end

mutual

/-- The first subtree, in the order of `toList`, whose value passes the test. -/
def subtree? (p : α → Bool) : Tree α → Option (Tree α)
  | node a ts => if p a then some (node a ts) else firstSubtree? p ts

def firstSubtree? (p : α → Bool) : List (Tree α) → Option (Tree α)
  | [] => none
  | t :: ts => (t.subtree? p).or (firstSubtree? p ts)

end

mutual

/-- Changes the children of the nodes that pass the test. -/
def modifyChildren (p : α → Bool) (f : List (Tree α) → List (Tree α)) : Tree α → Tree α
  | node a ts =>
    let ts := modifyAll p f ts
    node a (if p a then f ts else ts)

def modifyAll (p : α → Bool) (f : List (Tree α) → List (Tree α)) : List (Tree α) → List (Tree α)
  | [] => []
  | t :: ts => t.modifyChildren p f :: modifyAll p f ts

end

mutual

/-- Drops every subtree below the root whose value fails the test. -/
def keep (p : α → Bool) : Tree α → Tree α
  | node a ts => node a (keepAll p ts)

def keepAll (p : α → Bool) : List (Tree α) → List (Tree α)
  | [] => []
  | t :: ts => if p t.value then t.keep p :: keepAll p ts else keepAll p ts

end

mutual

/-- Numbers the nodes in the order of `toList`, from `n` on; also gives the next number. -/
def number (f : Nat → α → β) (n : Nat) : Tree α → Tree β × Nat
  | node a ts =>
    let (ts, next) := numberAll f (n + 1) ts
    (node (f n a) ts, next)

def numberAll (f : Nat → α → β) (n : Nat) : List (Tree α) → List (Tree β) × Nat
  | [] => ([], n)
  | t :: ts =>
    let (t, n) := t.number f n
    let (ts, n) := numberAll f n ts
    (t :: ts, n)

end

/-- A node among its relatives: its parent, its children and how deep it lies. -/
structure Row (α : Type) where
  value : α
  parent : Option α
  children : List α
  depth : Nat

mutual

/-- The nodes in the order of `toList`. -/
def rows (parent : Option α) (depth : Nat) : Tree α → List (Row α)
  | node a ts => ⟨a, parent, ts.map value, depth⟩ :: rowsAll (some a) (depth + 1) ts

def rowsAll (parent : Option α) (depth : Nat) : List (Tree α) → List (Row α)
  | [] => []
  | t :: ts => t.rows parent depth ++ rowsAll parent depth ts

end

end Tree

end ClassSketch
