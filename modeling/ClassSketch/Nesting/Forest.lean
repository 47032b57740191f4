import ClassSketch.Nesting.Growth

/-! The classes of a library as a forest: a tree for each file. -/

namespace ClassSketch

/-- Trees in the order of the names of their roots. -/
structure Forest where
  trees : List ClassTree := []
deriving Inhabited

namespace Forest

def graft (forest : List (Tree ClassNode)) (link : Link) : List (Tree ClassNode) :=
  forest.map (·.modifyChildren (fun n => n.name == link.parent) (insertByName (.leaf link.child)))

/-- Starts with the classes that lie in no other and adds the links in the order in which they were
made. -/
def ofLinks (classes : List ClassDecl) (links : List Link) : Forest :=
  let placed := links.map (·.child.name)
  let roots := classes.filter fun c => !placed.contains c.name
  let forest := links.reverse.foldl graft (roots.map fun c => .leaf (.ofDecl c))
  ⟨(sortByKey (fun t : Tree ClassNode => t.value.name) forest).map .ofTree⟩

/-- The forest of a library, with the next state of the renaming and what was noticed. -/
def build (l : Library) (o : Options) (policy : Renaming) :
    Forest × Renaming × List Warning :=
  let g := Ground.ofLibrary l o
  if o.nest then
    let census := Census.take g policy
    let walk := g.nest census.table
    (ofLinks g.classes walk.links, census.policy, census.warnings ++ walk.warnings)
  else (ofLinks g.classes [], policy, [])

def size (f : Forest) : Nat := f.trees.length

def isEmpty (f : Forest) : Bool := f.trees.isEmpty

def roots (f : Forest) : List String := f.trees.map (·.root.name)

def tree? (f : Forest) (root : String) : Option ClassTree :=
  f.trees.find? fun t => t.root.name == root

/-- A tree owns the classes that it was built with. -/
def ownerTree? (f : Forest) (name : String) : Option ClassTree :=
  f.trees.find? fun t => t.nodes.any fun n => n.id < t.built && n.name == name

def owner? (f : Forest) (name : String) : Option String := (f.ownerTree? name).map (·.root.name)

/-- The tree that owns a class, and the class's node in it. -/
def locate? (f : Forest) (name : String) : Option (ClassTree × Nat) := do
  let t ← f.ownerTree? name
  let id ← t.find? name
  return (t, id)

/-- Puts a changed tree back. -/
def update (f : Forest) (t : ClassTree) : Forest :=
  ⟨f.trees.map fun s => if s.root.name = t.root.name then t else s⟩

end Forest

end ClassSketch
