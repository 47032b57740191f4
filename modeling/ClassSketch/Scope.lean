/-! Where in a class the text being written stands. -/

namespace ClassSketch

structure Scope where
  className : Option String := none
  methodKey : Option String := none
deriving DecidableEq, Inhabited

/-- What is entered and left again. -/
inductive Element where
  | ofClass (name : String)
  | ofMethod (key : String)
deriving DecidableEq

/-- What was current before an element was entered. Only a class sets the method aside, too. -/
inductive SetAside where
  | byClass (className methodKey : Option String)
  | byMethod (methodKey : Option String)
deriving DecidableEq

namespace Scope

/-- A class is entered outside of every method. -/
def enterClass (name : String) (_ : Scope) : Scope := ⟨some name, none⟩

def enterMethod (key : String) (s : Scope) : Scope := { s with methodKey := some key }

/-- The scope inside an element, and what is set aside for it. -/
def enter (s : Scope) : Element → Scope × SetAside
  | .ofClass name => (s.enterClass name, .byClass s.className s.methodKey)
  | .ofMethod key => (s.enterMethod key, .byMethod s.methodKey)

/-- Puts back what was set aside, and nothing else. -/
def leave (s : Scope) : SetAside → Scope
  | .byClass className methodKey => ⟨className, methodKey⟩
  | .byMethod methodKey => { s with methodKey }

end Scope

/-- States that stand in some scope. -/
class Scoped (σ : Type) where
  scope : σ → Scope
  withScope : σ → Scope → σ

/-- Runs an action inside an element and leaves the element, whatever came of the action. -/
def inScope {σ α : Type} [Scoped σ] (e : Element) (act : StateM σ α) : StateM σ α :=
  fun s =>
    let (inside, aside) := (Scoped.scope s).enter e
    let (a, s) := act (Scoped.withScope s inside)
    (a, Scoped.withScope s ((Scoped.scope s).leave aside))

/-- Classes and methods that lie inside one another. What is done inside may break down, and that
may be caught somewhere around it. -/
inductive ScopeTree where
  | classScope (name : String) (inside : List ScopeTree)
  | methodScope (key : String) (inside : List ScopeTree)
  | breakdown
  | caught (inside : List ScopeTree)
deriving Inhabited

/-- The current scope and those that were noted, latest first. -/
structure ScopeLog where
  scope : Scope := {}
  noted : List Scope := []
deriving DecidableEq, Inhabited

instance : Scoped ScopeLog where
  scope log := log.scope
  withScope log scope := { log with scope }

namespace ScopeLog

def note : StateM ScopeLog Unit :=
  modify fun log => { log with noted := log.scope :: log.noted }

/-- Notes the scope on entering an element, and again after leaving it unless the work inside broke
down; says whether it did not. -/
def pass (e : Element) (inside : StateM ScopeLog Bool) : StateM ScopeLog Bool := do
  let finished ← inScope e do
    note
    inside
  if finished then note
  return finished

end ScopeLog

mutual

/-- Goes through a tree up to a breakdown that nobody catches; says whether there was none. -/
def ScopeTree.walk : ScopeTree → StateM ScopeLog Bool
  | .classScope name inside => ScopeLog.pass (.ofClass name) (walkAll inside)
  | .methodScope key inside => ScopeLog.pass (.ofMethod key) (walkAll inside)
  | .breakdown => return false
  | .caught inside => do
    let _ ← walkAll inside
    return true

def ScopeTree.walkAll : List ScopeTree → StateM ScopeLog Bool
  | [] => return true
  | t :: ts => do
    if ← t.walk then walkAll ts else return false

end

end ClassSketch
