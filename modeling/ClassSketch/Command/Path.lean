/-! Paths and the places they lead to. -/

namespace ClassSketch

/-- A path: the stretches of text between its slashes, empty ones included. -/
structure Path where
  parts : List String
deriving DecidableEq, Inhabited

namespace Path

/-- The stretches between slashes, `name` being read in reverse. -/
def splitSlashes (name : List Char) : List Char → List (List Char)
  | [] => [name.reverse]
  | c :: cs => if c == '/' then name.reverse :: splitSlashes [] cs else splitSlashes (c :: name) cs

def ofString (s : String) : Path := ⟨(splitSlashes [] s.toList).map String.ofList⟩

def toString (p : Path) : String := "/".intercalate p.parts

/-- A path that starts with a slash is seen from the top. -/
def absolute (p : Path) : Bool := 1 < p.parts.length && p.parts.head? == some ""

/-- A slash at the end of a folder's path stands before the next name. -/
def stem (dir : Path) : List String :=
  if dir.parts.getLast? == some "" then dir.parts.dropLast else dir.parts

/-- A path as seen from a folder; an absolute path does not depend on it. -/
def join (dir p : Path) : Path := if p.absolute then p else ⟨dir.stem ++ p.parts⟩

def parent (p : Path) : Path := ⟨p.parts.dropLast⟩

/-- What a file system takes for a path. -/
def fits (p : Path) : Bool := p.toString.utf8ByteSize < 4096

end Path

/-- A place in a file system, seen from the working folder or from the top. Only at the start of the
former can there be steps up. -/
structure Place where
  absolute : Bool := false
  parts : List String := []
deriving DecidableEq, Inhabited

namespace Place

/-- One step up; there is nothing above the top. -/
def up (p : Place) : Place :=
  match p.parts.getLast? with
  | none => if p.absolute then p else { p with parts := [".."] }
  | some last =>
    if last = ".." then { p with parts := p.parts ++ [".."] }
    else { p with parts := p.parts.dropLast }

/-- An empty name and a single dot stay where they are. -/
def step (p : Place) (name : String) : Place :=
  if name = "" || name = "." then p
  else if name = ".." then p.up
  else { p with parts := p.parts ++ [name] }

def start (absolute : Bool) : Place := { absolute }

/-- Where a path leads if all its folders are there. -/
def ofPath (p : Path) : Place := p.parts.foldl step (start p.absolute)

/-- The working folder, the top and all that lies between them are folders. -/
def isGround (p : Place) : Bool := p.parts.all (· == "..")

/-- Whether `p` lies below `q`. -/
def isBelow (p q : Place) : Bool :=
  p.absolute == q.absolute && q.parts.isPrefixOf p.parts && q.parts.length < p.parts.length

end Place

end ClassSketch
