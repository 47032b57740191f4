import ClassSketch.Class.Decl

/-! A library of declared classes. Signatures are parsed once and pooled under the class's name
until the class is released. -/

namespace ClassSketch

/-- How a library serves code and signatures: with a pool, without one, or without one and with
code that cannot be read. -/
inductive ReadMode where
  | pooled | plain | unreadable
deriving DecidableEq, Inhabited

/-- No two classes of a library have the same name. -/
structure Library where
  classes : List ClassDecl := []
  pool : List (String × Option ClassSignature) := []
  mode : ReadMode := .pooled
  distinct : (classes.map (·.name)).Nodup := by exact List.nodup_nil

namespace Library

instance : Inhabited Library := ⟨{}⟩

/-- Puts a class in the place of the one that has its name, or at the end. -/
def put (c : ClassDecl) : List ClassDecl → List ClassDecl
  | [] => [c]
  | d :: ds => if d.name = c.name then c :: ds else d :: put c ds

theorem mem_names_put {c : ClassDecl} {n : String} {ds : List ClassDecl} :
    n ∈ (put c ds).map (·.name) ↔ n = c.name ∨ n ∈ ds.map (·.name) := by
  induction ds with
  | nil => simp [put]
  | cons d ds ih =>
    by_cases hd : d.name = c.name
    · simp [put, hd]
    · simp only [put, hd, if_false, List.map_cons, List.mem_cons, ih]
      exact or_left_comm

theorem nodup_names_put {c : ClassDecl} {ds : List ClassDecl} (h : (ds.map (·.name)).Nodup) :
    ((put c ds).map (·.name)).Nodup := by
  induction ds with
  | nil => simp [put]
  | cons d ds ih =>
    obtain ⟨hd, hds⟩ := List.nodup_cons.mp h
    by_cases he : d.name = c.name
    · simpa only [put, he, if_true, List.map_cons] using h
    · simp only [put, he, if_false, List.map_cons, List.nodup_cons]
      refine ⟨fun hm => ?_, ih hds⟩
      exact (mem_names_put.mp hm).elim he hd

def insert (l : Library) (c : ClassDecl) : Library :=
  { l with classes := put c l.classes, distinct := nodup_names_put l.distinct }

def ofList (cs : List ClassDecl) : Library := cs.foldl insert {}

def size (l : Library) : Nat := l.classes.length

def isEmpty (l : Library) : Bool := l.classes.isEmpty

def find? (l : Library) (name : String) : Option ClassDecl :=
  l.classes.find? fun c => c.name == name

def ownClasses (l : Library) : List ClassDecl := l.classes.filter (·.own)

def pooled (l : Library) : Nat := l.pool.length

/-- The signature of a class, from the pool if its name is there. -/
def signature? (c : ClassDecl) : StateM Library (Option ClassSignature) := fun l =>
  match l.mode with
  | .pooled =>
    match l.pool.lookup c.name with
    | some s => (s, l)
    | none =>
      let s := c.readableSignature?
      (s, { l with pool := (c.name, s) :: l.pool })
  | _ => (c.readableSignature?, l)

def release (l : Library) (name : String) : Library :=
  { l with pool := l.pool.filter fun e => e.1 != name }

/-- The code of a method of a class, none when the method has none, or why it cannot be read. -/
def code (l : Library) (c : ClassDecl) (m : MethodDecl) :
    Except String (Option (List Instruction)) :=
  match l.mode with
  | .unreadable => .error ("truncated class file " ++ c.name)
  | _ => .ok m.code

end Library

end ClassSketch
