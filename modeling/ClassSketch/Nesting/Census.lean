import ClassSketch.Class.Library
import ClassSketch.Nesting.Claim
import ClassSketch.Options
import ClassSketch.Renaming
import ClassSketch.Warning

/-! Collecting what all classes claim about nesting, in the order in which they were loaded. -/

namespace ClassSketch

/-- What nesting is decided on: the classes to be placed, which have distinct names, and the
library that they are from. -/
structure Ground where
  classes : List ClassDecl
  library : Library
  options : Options
  distinct : (classes.map (·.name)).Nodup

namespace Ground

def ofLibrary (l : Library) (o : Options) : Ground :=
  { classes := l.ownClasses.filter fun c => o.allows c.name, library := l, options := o
    distinct := l.distinct.sublist
      ((List.filter_sublist.trans List.filter_sublist).map ClassDecl.name) }

def find? (g : Ground) (name : String) : Option ClassDecl :=
  g.classes.find? fun c => c.name == name

/-- What an entry says about a class. Only classes that the library knows can be local. -/
def entryKind (g : Ground) (e : NestingEntry) : NestKind :=
  match e.simpleName with
  | none => .anonymous
  | some _ =>
    match g.library.find? e.inner with
    | none => .member
    | some inner =>
      if e.outer.isNone || (inner.enclosing.bind (·.methodName)).isSome then .localClass
      else .member

/-- The name of a member is that of its class, a dollar and the simple name. -/
def fits (e : NestingEntry) (enclosing : String) (kind : NestKind) : Bool :=
  match kind, e.simpleName with
  | .member, some simple => e.inner == enclosing ++ "$" ++ simple
  | _, _ => true

end Ground

/-- The claims so far, and the name chosen for each class that was given one. -/
structure Census where
  table : ClaimTable := {}
  names : List (String × String) := []
  policy : Renaming
  warnings : List Warning := []
deriving Inhabited

namespace Census

/-- The name of a class, chosen when it is first spoken of. -/
def chooseName (c : Census) (inner simple : String) : String × Census :=
  match c.names.lookup inner with
  | some name => (name, c)
  | none =>
    let (name, policy) := c.policy.rename inner simple
    (name, { c with names := (inner, name) :: c.names, policy })

def add (warn : Bool) (c : Census) (claim : Claim) : Census :=
  let warnings := match c.table.conflict? claim with
    | some old => if warn then c.warnings ++ [.conflictingClaims old claim] else c.warnings
    | none => c.warnings
  { c with table := c.table.merge claim, warnings }

/-- Takes in one entry of a class. Entries that put a class into itself, misname a member or name an
unplaced class as the enclosing one make no claim, but still choose a name. -/
def readEntry (g : Ground) (source : String) (c : Census) (e : NestingEntry) : Census :=
  let (name, c) := match e.simpleName with
    | none => (none, c)
    | some simple =>
      let (name, c) := c.chooseName e.inner simple
      (some name, c)
  let kind := g.entryKind e
  let enclosing := e.outer.getD source
  if e.inner == enclosing || !Ground.fits e enclosing kind || (g.find? enclosing).isNone then c
  else c.add g.options.warnInconsistent
    { inner := e.inner, enclosing, kind, source, access := e.access, simpleName := name
      renamedFrom := if name == e.simpleName then none else e.simpleName }

def readClass (g : Ground) (c : Census) (d : ClassDecl) : Census :=
  d.nestingEntries.foldl (readEntry g d.name) c

def take (g : Ground) (policy : Renaming) : Census :=
  g.classes.foldl (readClass g) { policy }

end Census

end ClassSketch
