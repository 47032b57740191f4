import ClassSketch.Nesting.Claim
import ClassSketch.Nesting.Lambda
import ClassSketch.Tree

/-! A file's classes as a tree. The nodes of a tree that was just built are numbered in preorder.
Nodes for lambdas are added for a while and get the numbers that follow. -/

namespace ClassSketch

structure ClassNode where
  id : Nat := 0
  kind : NestKind := .root
  name : String
  decl : ClassDecl
  /-- Flags in effect. Those of a nested class come from the claim about it. -/
  access : AccessFlags
  simpleName : Option String := none
  renamedFrom : Option String := none
  /-- All classes that were claimed to enclose this one. -/
  enclosers : List String := []
  /-- What an anonymous class is an instance of. -/
  anonymousType : Option JType := none
  enclosingMethod : Option String := none
  lambda : Option Lambda := none
  /-- Some member could not be rendered. -/
  failed : Bool := false
deriving Inhabited

namespace ClassNode

def enclosingKey (d : ClassDecl) : Option String := do
  let site ← d.enclosing
  return memberKey (← site.methodName) (← site.descriptor)

/-- A class that stands in a file of its own. -/
def ofDecl (d : ClassDecl) : ClassNode :=
  { name := d.name, decl := d, access := d.access, simpleName := some d.simpleName,
    enclosingMethod := enclosingKey d }

/-- Anonymous classes cannot be static, and local classes have only some flags. -/
def accessAs (claimed : AccessFlags) : NestKind → AccessFlags
  | .anonymous => claimed.without .staticFlag
  | .localClass => claimed.localPart
  | _ => claimed

def anonymousTypeAs (d : ClassDecl) : NestKind → Option JType
  | .anonymous => (d.interfaces.head?.or d.superclass).map JType.ofClass
  | _ => none

/-- A class that is nested as a claim says. The kind may have been corrected. -/
def ofClaim (d : ClassDecl) (c : Claim) (kind : NestKind) (enclosers : List String) : ClassNode :=
  { ofDecl d with
    kind, enclosers
    simpleName := c.simpleName
    renamedFrom := c.renamedFrom
    access := accessAs c.access kind
    anonymousType := anonymousTypeAs d kind }

/-- The object made at a call site. -/
def ofLambda (home : ClassDecl) (index : Nat) (s : CallSite) : ClassNode :=
  let l := Lambda.ofSite home s
  { kind := .lambda, name := home.name ++ "##Lambda_" ++ toString index, decl := home,
    access := if l.targetStatic then .staticFlag else {},
    enclosingMethod := s.enclosingMethod, lambda := some l }

def isLambda (n : ClassNode) : Bool := n.kind == .lambda

/-- The name in declarations; without a simple name, the part after the last dollar. -/
def displayName (n : ClassNode) : String := n.simpleName.getD (Name.lastSegment n.name)

end ClassNode

/-- Puts a subtree among siblings that are ordered by name, before those of its own name. -/
def insertByName (t : Tree ClassNode) : List (Tree ClassNode) → List (Tree ClassNode)
  | [] => [t]
  | s :: ss => if s.value.name < t.value.name then s :: insertByName t ss else t :: s :: ss

structure ClassTree where
  tree : Tree ClassNode
  /-- How many nodes the tree was built with. -/
  built : Nat
  /-- Numbers of the nodes by name, those added last first. -/
  index : List (String × Nat)
deriving Inhabited

namespace ClassTree

/-- Numbers the nodes of a tree and indexes them. -/
def ofTree (t : Tree ClassNode) : ClassTree :=
  let t := (t.number (fun id (n : ClassNode) => { n with id }) 0).1
  { tree := t, built := t.size, index := t.toList.map fun n => (n.name, n.id) }

def single (d : ClassDecl) : ClassTree := ofTree (.leaf (.ofDecl d))

def root (t : ClassTree) : ClassNode := t.tree.value

def size (t : ClassTree) : Nat := t.tree.size

def nodes (t : ClassTree) : List ClassNode := t.tree.toList

def find? (t : ClassTree) (name : String) : Option Nat := t.index.lookup name

def subtree? (t : ClassTree) (id : Nat) : Option (Tree ClassNode) :=
  t.tree.subtree? fun n => n.id == id

def node? (t : ClassTree) (id : Nat) : Option ClassNode := (t.subtree? id).map Tree.value

/-- Adds a node for a while; also gives its number. -/
def addTransient (t : ClassTree) (parent : Nat) (n : ClassNode) : Nat × ClassTree :=
  let id := t.size
  let n := { n with id }
  (id, { t with
    tree := t.tree.modifyChildren (fun p => p.id == parent) (insertByName (.leaf n))
    index := (n.name, id) :: t.index })

def addLambda (t : ClassTree) (home : ClassNode) (index : Nat) (s : CallSite) : Nat × ClassTree :=
  t.addTransient home.id (.ofLambda home.decl index s)

/-- Drops the nodes that were added, and their names from the index. -/
def detach (t : ClassTree) : ClassTree :=
  let added := (t.nodes.filter fun n => t.built ≤ n.id).map (·.name)
  { t with
    tree := t.tree.keep fun n => n.id < t.built
    index := t.index.filter fun e => !added.contains e.1 }

def clearFailures (t : ClassTree) : ClassTree :=
  { t with tree := t.tree.map fun n => { n with failed := false } }

/-- Notes that some member of each of the nodes could not be rendered. -/
def markFailed (t : ClassTree) (ids : List Nat) : ClassTree :=
  { t with tree := t.tree.map fun n => if ids.contains n.id then { n with failed := true } else n }

def hasFailure (t : ClassTree) : Bool := t.nodes.any (·.failed)

/-- The nodes with their relatives, in the order of their numbers. -/
def rows (t : ClassTree) : List (Tree.Row ClassNode) :=
  sortByKey (fun r : Tree.Row ClassNode => r.value.id) (t.tree.rows none 0)

end ClassTree

end ClassSketch
