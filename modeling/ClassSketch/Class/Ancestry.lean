import ClassSketch.Class.Library
import ClassSketch.Table

/-! Ancestors of a class, and what their type variables mean to it. Each direct supertype supplies
arguments for its own parameters; what it knows of its ancestors is read through them. Once
found, the ancestry of a class is kept. -/

namespace ClassSketch

inductive AncestryError where
  /-- The class is among its own ancestors. -/
  | cycle (name : String)
  | unknownClass (name : String)
deriving DecidableEq

def AncestryError.message : AncestryError → String
  | cycle name => "inheritance cycle through " ++ name
  | unknownClass name => "class not found: " ++ name

/-- The ancestors of a class, itself included, each with a value for its type variables. -/
structure Ancestry where
  className : String
  ancestors : Table String Substitution
deriving Inhabited

namespace Ancestry

def substitution? (a : Ancestry) (ancestor : String) : Option Substitution :=
  a.ancestors.find? ancestor

/-- All ancestors but the class itself, in the order of their names. -/
def properNames (a : Ancestry) : List String := a.ancestors.keys.filter (· != a.className)

def resolve? (a : Ancestry) (ancestor variableName : String) : Option JType :=
  (a.substitution? ancestor).bind (·.lookup variableName)

end Ancestry

/-- A library together with the ancestries found in it so far. -/
structure Genealogy where
  library : Library := {}
  known : List (String × Ancestry) := []
deriving Inhabited

namespace Genealogy

def signature? (c : ClassDecl) : StateM Genealogy (Option ClassSignature) := fun g =>
  let (s, library) := Library.signature? c g.library
  (s, { g with library })

/-- The direct supertypes, from the signature if there is one. -/
def supertypes (c : ClassDecl) : Option ClassSignature → List JType
  | some s => s.superclass :: s.interfaces
  | none => (c.superclass.toList ++ c.interfaces).map JType.ofClass

def ofParameters (pairs : List (String × JType)) : Substitution :=
  pairs.foldl (fun s (v, t) => Table.insert s v t) []

def identity : Option ClassSignature → Substitution
  | some s => ofParameters (s.paramNames.map fun v => (v, .var v 0))
  | none => []

/-- The value that an argument gives to a parameter: a wildcard stands for its bound. -/
def argumentValue (a : TypeArg) : JType := a.bound?.getD .object

/-- Arguments by position. A class that is missing or has no readable signature takes none. -/
def argumentsFor (name : String) (t : JType) : StateM Genealogy Substitution := do
  match (← get).library.find? name with
  | none => return []
  | some c =>
    match ← signature? c with
    | none => return []
    | some s => return ofParameters (s.paramNames.zip (t.args.map argumentValue))

/-- Takes over the ancestors of a supertype. What is known already stays. -/
def inherit (arguments : Substitution) (inherited : Ancestry) (found : Table String Substitution) :
    Table String Substitution :=
  found.absorb (inherited.ancestors.mapValues (Table.mapValues (JType.substitute arguments)))

/-- Goes through the supertypes in their order; `find` gives the ancestry of one of them. -/
def collect (find : String → StateM Genealogy (Except AncestryError Ancestry)) :
    List JType → Table String Substitution →
      StateM Genealogy (Except AncestryError (Table String Substitution))
  | [], found => return .ok found
  | t :: ts, found => do
    match t.className? with
    | none => collect find ts found
    | some name =>
      let arguments ← argumentsFor name t
      let found := found.insertNew name arguments
      match (← get).library.find? name with
      | none => collect find ts found
      | some _ =>
        match ← find name with
        | .error e => return .error e
        | .ok inherited => collect find ts (inherit arguments inherited found)

/-- The ancestry of a class that is reached through the classes in `below`. At most `n` more classes
can lie above it. -/
def search : Nat → List String → String → StateM Genealogy (Except AncestryError Ancestry)
  | 0, _, name => return .error (.cycle name)
  | n + 1, below, name => do
    match (← get).known.lookup name with
    | some a => return .ok a
    | none =>
      if below.contains name then return .error (.cycle name)
      match (← get).library.find? name with
      | none => return .error (.unknownClass name)
      | some c =>
        let s ← signature? c
        match ← collect (search n (name :: below)) (supertypes c s) [(name, identity s)] with
        | .error e => return .error e
        | .ok ancestors =>
          let a : Ancestry := ⟨name, ancestors⟩
          modify fun g => { g with known := (name, a) :: g.known }
          return .ok a

/-- The ancestry of a class. Classes above one another differ, so the library bounds how many there
are. -/
def ancestry (name : String) : StateM Genealogy (Except AncestryError Ancestry) := fun g =>
  search (g.library.size + 1) [] name g

end Genealogy

end ClassSketch
