import ClassSketch.Command.Path

/-! Files and folders as a value: reading, making folders and writing. -/

namespace ClassSketch

structure FileTree where
  files : List (Place × String) := []
  folders : List Place := []
deriving Inhabited

namespace FileTree

/-- The null device is a file in every tree: there is nothing to read in it, and what is written to
it is gone. -/
def nullDevice : Place := { absolute := true, parts := ["dev", "null"] }

def text? (t : FileTree) (p : Place) : Option String :=
  if p = nullDevice then some "" else t.files.lookup p

def isFile (t : FileTree) (p : Place) : Bool := (t.text? p).isSome

/-- A folder is there if it was made or if something lies below it. -/
def isFolder (t : FileTree) (p : Place) : Bool :=
  p.isGround || nullDevice.isBelow p || t.folders.contains p || t.folders.any (·.isBelow p)
    || t.files.any fun (q, _) => q.isBelow p

/-- Follows the parts of a path. Every step starts from a folder that is there, also one that stays
where it is. -/
def follow (t : FileTree) (p : Place) : List String → Option Place
  | [] => some p
  | name :: names => if t.isFolder p then t.follow (p.step name) names else none

def read? (t : FileTree) (path : Path) : Option String :=
  if path.fits then (t.follow (.start path.absolute) path.parts).bind (t.text? ·) else none

/-- What a file system takes for a name. -/
def isName (s : String) : Bool := s.utf8ByteSize ≤ 255 && !s.toList.contains (Char.ofNat 0)

/-- Makes the folders on the way that are missing; a file in the way stops it. -/
def makeFolders (t : FileTree) (p : Place) : List String → Option (FileTree × Place)
  | [] => some (t, p)
  | name :: names =>
    let q := p.step name
    if t.isFile q || !isName name then none
    else if t.isFolder q then t.makeFolders q names
    else ({ t with folders := q :: t.folders } : FileTree).makeFolders q names

def put (t : FileTree) (p : Place) (text : String) : FileTree :=
  if p = nullDevice then t
  else { t with files := (p, text) :: t.files.filter fun (q, _) => q != p }

/-- Writes a file after making its folders. Folders that were made stay when the file cannot be
written. -/
def write (t : FileTree) (path : Path) (text : String) : FileTree × Bool :=
  match path.parts.getLast?, path.fits with
  | some name, true =>
    match t.makeFolders (.start path.absolute) path.parent.parts with
    | none => (t, false)
    | some (t, folder) =>
      let p := folder.step name
      if t.isFolder p || !isName name then (t, false) else (t.put p text, true)
  | _, _ => (t, false)

/-- The tree that holds the given files and no others. -/
def ofList (files : List (String × String)) : FileTree :=
  files.foldl (fun t (name, text) => (t.write (.ofString name) text).1) {}

/-- The files under the working folder that are not as they were. -/
def changedFiles (before after : FileTree) : List (String × String) :=
  (after.files.filter fun (p, text) =>
      !p.absolute && p.parts.head? != some ".." && before.files.lookup p != some text).map
    fun (p, text) => ("/".intercalate p.parts, text)

end FileTree

end ClassSketch
