import ClassSketch.Class.Decl
import ClassSketch.Table

/-! Claims about nesting. Every class file may say something about the nesting of any class, and
files may disagree. A class's own word about itself is trusted most, then the word of the class
that encloses it. -/

namespace ClassSketch

/-- How a class sits in its file. -/
inductive NestKind where
  | root | member | anonymous | localClass | lambda
deriving DecidableEq, Inhabited

namespace NestKind

def all : List NestKind := [root, member, anonymous, localClass, lambda]

def label : NestKind → String
  | root => "root"
  | member => "member"
  | anonymous => "anonymous"
  | localClass => "local"
  | lambda => "lambda"

/-- The word that messages use. -/
def word : NestKind → String
  | root => "Root"
  | member => "Member"
  | anonymous => "Anonymous"
  | localClass => "Local"
  | lambda => "Lambda"

end NestKind

structure Claim where
  inner : String
  enclosing : String
  simpleName : Option String := none
  renamedFrom : Option String := none
  kind : NestKind
  access : AccessFlags := {}
  /-- The class that makes the claim. -/
  source : String
deriving DecidableEq, Inhabited

namespace Claim

/-- Claims agree if they describe the class alike, wherever they put it. -/
def agrees (c d : Claim) : Bool :=
  c.simpleName == d.simpleName && c.kind == d.kind && c.access == d.access

/-- Lower ranks are trusted more. -/
def rank (c : Claim) (enclosing : String) : Nat :=
  if c.source = c.inner then 1 else if c.source = enclosing then 2 else 3

/-- A claim takes the place of one that it disagrees with if it ranks strictly better. -/
def displaces (new old : Claim) : Bool :=
  !old.agrees new && decide (new.rank new.enclosing < old.rank new.enclosing)

end Claim

/-- One claim for each class that anyone claimed, and all nesting that was ever claimed. -/
structure ClaimTable where
  settled : List Claim := []
  /-- Pairs of an enclosing and an inner class. -/
  edges : List (String × String) := []
deriving Inhabited

namespace ClaimTable

def claim? (t : ClaimTable) (inner : String) : Option Claim :=
  t.settled.find? fun c => c.inner == inner

def isClaimed (t : ClaimTable) (name : String) : Bool := (t.claim? name).isSome

def sortedNames (names : List String) : List String :=
  names.foldl (fun ns n => insertSorted n ns) []

def nestedIn (t : ClaimTable) (enclosing : String) : List String :=
  sortedNames (t.edges.filterMap fun (e, i) => if e = enclosing then some i else none)

def enclosersOf (t : ClaimTable) (inner : String) : List String :=
  sortedNames (t.edges.filterMap fun (e, i) => if i = inner then some e else none)

def settle (c : Claim) : List Claim → List Claim
  | [] => [c]
  | d :: ds =>
    if d.inner = c.inner then (if c.displaces d then c else d) :: ds else d :: settle c ds

/-- Takes a claim in. Its nesting is kept even when the claim is not. -/
def merge (t : ClaimTable) (c : Claim) : ClaimTable :=
  { settled := settle c t.settled, edges := (c.enclosing, c.inner) :: t.edges }

/-- The settled claim that a new one contradicts. -/
def conflict? (t : ClaimTable) (c : Claim) : Option Claim :=
  (t.claim? c.inner).filter fun d => !d.agrees c

end ClaimTable

end ClassSketch
