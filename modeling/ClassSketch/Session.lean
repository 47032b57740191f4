import ClassSketch.Failure
import ClassSketch.Nesting.Forest
import ClassSketch.Sketch.File

/-! A run over one library: its forest, and files written from it in any order. -/

namespace ClassSketch

structure Session (σ : Type) where
  kit : Kit σ
  shop : Workshop σ
  /-- Names given out so far stay given out when the forest is built anew. -/
  policy : Renaming
  forest : Forest := {}

namespace Session

variable {σ : Type}

/-- Builds the forest, also a second time. -/
def load (s : Session σ) : Session σ :=
  let (forest, policy, warnings) := Forest.build s.shop.genealogy.library s.kit.options s.policy
  { s with forest, policy, shop := { s.shop with warnings := s.shop.warnings ++ warnings } }

def start (kit : Kit σ) (library : Library) (memory : σ) (policy : Renaming) : Session σ :=
  load { kit, policy, shop := { genealogy := { library }, memory } }

/-- Writes the file that holds a class. -/
def write (s : Session σ) (name : String) : Except Failure (SourceFile × Session σ) :=
  match s.forest.owner? name with
  | none => .error (.classNotFound name)
  | some root =>
    match s.forest.tree? root with
    | none => .error (.internal ("missing tree for root " ++ root))
    | some t =>
      let (file, t, shop) := s.shop.writeFile s.kit t
      .ok (file, { s with shop, forest := s.forest.update t })

/-- Writes every file, in the order of the names of their classes. -/
def writeAll (s : Session σ) : List SourceFile × Session σ :=
  let (files, shop) := s.shop.writeFiles s.kit s.forest.trees
  (files, { s with shop })

def ancestry (s : Session σ) (name : String) : Except AncestryError Ancestry × Session σ :=
  let (a, genealogy) := Genealogy.ancestry name s.shop.genealogy
  (a, { s with shop := { s.shop with genealogy } })

def known (s : Session σ) : Nat := s.shop.genealogy.known.length

def pooled (s : Session σ) : Nat := s.shop.genealogy.library.pooled

/-- Takes out the warnings noted so far. -/
def takeWarnings (s : Session σ) : List Warning × Session σ :=
  (s.shop.warnings, { s with shop := { s.shop with warnings := [] } })

/-- Takes out the names of the classes that were made ready so far. -/
def takePrepared (s : Session σ) : List String × Session σ :=
  (s.shop.prepared, { s with shop := { s.shop with prepared := [] } })

end Session

end ClassSketch
