import ClassSketch.Nesting.Anonymity
import ClassSketch.Nesting.Census
import ClassSketch.Nesting.Node

/-! Settling who lies in whom. From each class that nobody claims, the claimed classes are reached
breadth first and put under the class from which they are reached. -/

namespace ClassSketch

/-- A class that was put under another one. -/
structure Link where
  child : ClassNode
  parent : String
deriving Inhabited

/-- A walk from a root: the links made so far, latest first, the names met on this walk, and the
classes still to be looked at. -/
structure Walk where
  links : List Link := []
  met : List String := []
  queue : List String := []
  warnings : List Warning := []
deriving Inhabited

/-- Whether the class lies above `of`. Links are latest first, and a parent is linked before its
children. -/
def liesAbove (candidate : String) : String → List Link → Bool
  | _, [] => false
  | of, link :: links =>
    if link.child.name = of then link.parent == candidate || liesAbove candidate link.parent links
    else liesAbove candidate of links

namespace Walk

def isPlaced (w : Walk) (name : String) : Bool := w.links.any fun link => link.child.name == name

def warn (w : Walk) (x : Warning) : Walk := { w with warnings := w.warnings ++ [x] }

/-- Puts a class under another one, as the claim about it says unless it only claims to be
anonymous. -/
def place (g : Ground) (t : ClaimTable) (parent child : ClassDecl) (claim : Claim) (w : Walk) :
    Walk :=
  let objection := if claim.kind = .anonymous ∧ g.options.verifyAnonymous then
      Anonymity.objection? g.library child parent
    else none
  let kind := if objection.isSome then .localClass else claim.kind
  let node := ClassNode.ofClaim child claim kind (t.enclosersOf child.name)
  { w with
    links := ⟨node, parent.name⟩ :: w.links
    queue := w.queue ++ [child.name]
    warnings := w.warnings ++ objection.toList }

/-- Looks at one entry of the class from which others are reached. -/
def visitEntry (g : Ground) (t : ClaimTable) (parent : ClassDecl) (nested : List String) (w : Walk)
    (e : NestingEntry) : Walk :=
  if !nested.contains e.inner || w.met.contains e.inner then w
  else
    let w := { w with met := e.inner :: w.met }
    match g.find? e.inner with
    | none => w.warn (.nestedMissing e.inner)
    | some child =>
      if child.name == parent.name || w.isPlaced child.name
          || liesAbove child.name parent.name w.links then
        w.warn (.alreadyNested child.name)
      else
        match t.claim? child.name with
        | none => w
        | some claim => w.place g t parent child claim

/-- Looks at a class: those of its entries count that some claim puts into it. -/
def visit (g : Ground) (t : ClaimTable) (w : Walk) (name : String) : Walk :=
  match g.find? name, t.nestedIn name with
  | none, _ | _, [] => w
  | some parent, nested =>
    match parent.nestingEntries with
    | [] => w.warn (.noNestingEntries name)
    | entries => entries.foldl (visitEntry g t parent nested) w

/-- At most `n` classes are looked at. -/
def run (g : Ground) (t : ClaimTable) : Nat → Walk → Walk
  | 0, w => w
  | n + 1, w =>
    match w.queue with
    | [] => w
    | name :: queue => run g t n (({ w with queue } : Walk).visit g t name)

/-- Every class enters the queue at most once, so it is empty at the end. -/
def fromRoot (g : Ground) (t : ClaimTable) (w : Walk) (root : String) : Walk :=
  run g t (g.classes.length + 1) { w with met := [root], queue := [root] }

end Walk

/-- The classes that nobody claims, in the order of their names. -/
def Ground.unclaimed (g : Ground) (t : ClaimTable) : List String :=
  sortByKey id ((g.classes.map (·.name)).filter fun n => !t.isClaimed n)

def Ground.nest (g : Ground) (t : ClaimTable) : Walk :=
  (g.unclaimed t).foldl (Walk.fromRoot g t) {}

end ClassSketch
