import ClassSketch.Class.Access
import ClassSketch.Class.Metadata

/-! Modifiers of declarations. A modifier is found by one test on the access flags or on the
metadata word and belongs to a group of declarations. The same bit means different things on
different declarations, so bits are read, and keywords written, only for groups that the
declaration owns. -/

namespace ClassSketch

/-- Kinds of declarations, and the groups of modifiers they share. -/
inductive Owner where
  | hasAnnotations | visibility | modality | member | class_ | constructor_ | function | property
  | propertyAccessor | valueParameter | typeParameter | typeAlias | type
deriving DecidableEq, Inhabited

namespace Owner

def all : List Owner :=
  [hasAnnotations, visibility, modality, member, class_, constructor_, function, property,
    propertyAccessor, valueParameter, typeParameter, typeAlias, type]

def parents : Owner → List Owner
  | hasAnnotations | visibility | modality | typeParameter | type => []
  | member => [hasAnnotations, visibility]
  | class_ | function | property | propertyAccessor => [member, modality]
  | constructor_ => [member]
  | valueParameter => [hasAnnotations]
  | typeAlias => [hasAnnotations, visibility]

/-- Whether `group` is reached in at most `n` steps up. -/
def ownsWithin : Nat → Owner → Owner → Bool
  | 0, o, group => o == group
  | n + 1, o, group => o == group || o.parents.any fun p => ownsWithin n p group

/-- Ownership is the reflexive and transitive closure of `parents`, which is three steps high. -/
def owns (o group : Owner) : Bool := ownsWithin 3 o group

end Owner

inductive Modifier where
  | public_ | protected_ | private_ | internal | expect | final | open_ | abstract_ | sealed
  | const | external | lateinit | tailrec | suspend | inner | data | inline_ | infix_ | operator
  | crossinline | noinline | static | synthetic | bridge | varargs | var | hasAnnotations
deriving DecidableEq, Inhabited

/-- Where the test for a modifier looks. -/
inductive ModifierTest where
  | access (flag : AccessFlags)
  | metadata (test : BitTest)
deriving DecidableEq

namespace Modifier

/-- All modifiers in the order in which keywords are written. -/
def all : List Modifier :=
  [public_, protected_, private_, internal, expect, final, open_, abstract_, sealed, const,
    external, lateinit, tailrec, suspend, inner, data, inline_, infix_, operator, crossinline,
    noinline, static, synthetic, bridge, varargs, var, hasAnnotations]

/-- Public is the default and is not written. -/
def keyword? : Modifier → Option String
  | protected_ => some "protected"
  | private_ => some "private"
  | internal => some "internal"
  | expect => some "expect"
  | final => some "final"
  | open_ => some "open"
  | abstract_ => some "abstract"
  | sealed => some "sealed"
  | const => some "const"
  | external => some "external"
  | lateinit => some "lateinit"
  | tailrec => some "tailrec"
  | suspend => some "suspend"
  | inner => some "inner"
  | data => some "data"
  | inline_ => some "inline"
  | infix_ => some "infix"
  | operator => some "operator"
  | crossinline => some "crossinline"
  | noinline => some "noinline"
  | public_ | static | synthetic | bridge | varargs | var | hasAnnotations => none

def owner : Modifier → Owner
  | public_ | protected_ | private_ | internal => .visibility
  | final | open_ | abstract_ | sealed => .modality
  | expect | inner | data => .class_
  | const | lateinit | var => .property
  | external | static | synthetic => .member
  | tailrec | suspend | inline_ | infix_ | operator | bridge | varargs => .function
  | crossinline | noinline => .valueParameter
  | hasAnnotations => .hasAnnotations

def test : Modifier → ModifierTest
  | public_ => .access .publicFlag
  | protected_ => .access .protectedFlag
  | private_ => .access .privateFlag
  | internal => .metadata ⟨.visibility, 0⟩
  | expect => .metadata (.bit 12)
  | final => .access .finalFlag
  | open_ => .metadata ⟨.modality, 1⟩
  | abstract_ => .access .abstractFlag
  | sealed => .metadata ⟨.modality, 3⟩
  | const => .metadata (.bit 12)
  | external => .access .nativeFlag
  | lateinit => .metadata (.bit 13)
  | tailrec => .metadata (.bit 12)
  | suspend => .metadata (.bit 14)
  | inner => .metadata (.bit 9)
  | data => .metadata (.bit 10)
  | inline_ => .metadata (.bit 11)
  | infix_ => .metadata (.bit 10)
  | operator => .metadata (.bit 9)
  | crossinline => .metadata (.bit 7)
  | noinline => .metadata (.bit 8)
  | static => .access .staticFlag
  | synthetic => .access .syntheticFlag
  | bridge => .access .bridgeFlag
  | varargs => .access .varargsFlag
  | var => .metadata (.bit 9)
  | hasAnnotations => .metadata (.bit 0)

def inAccess (m : Modifier) (a : AccessFlags) : Bool :=
  match m.test with
  | .access flag => a.has flag
  | .metadata _ => false

def inWord (m : Modifier) (w : MetadataWord) : Bool :=
  match m.test with
  | .access _ => false
  | .metadata t => t.holds w

end Modifier

structure ModifierSet where
  has : Modifier → Bool

namespace ModifierSet

def empty : ModifierSet := ⟨fun _ => false⟩

instance : Inhabited ModifierSet := ⟨empty⟩

def insert (s : ModifierSet) (m : Modifier) : ModifierSet := ⟨fun x => x == m || s.has x⟩

def erase (s : ModifierSet) (m : Modifier) : ModifierSet := ⟨fun x => x != m && s.has x⟩

def insertIf (s : ModifierSet) (m : Modifier) (present : Bool) : ModifierSet :=
  if present then s.insert m else s.erase m

def union (s t : ModifierSet) : ModifierSet := ⟨fun x => s.has x || t.has x⟩

/-- The modifiers that a declaration reads off its access flags. -/
def ofAccess (a : AccessFlags) (o : Owner) : ModifierSet :=
  ⟨fun m => o.owns m.owner && m.inAccess a⟩

/-- The modifiers that a declaration reads off its metadata word. -/
def ofWord (w : MetadataWord) (o : Owner) : ModifierSet := ⟨fun m => o.owns m.owner && m.inWord w⟩

def toList (s : ModifierSet) : List Modifier := Modifier.all.filter s.has

def size (s : ModifierSet) : Nat := s.toList.length

def isEmpty (s : ModifierSet) : Bool := s.toList.isEmpty

/-- The keywords that a declaration shows. -/
def keywords (s : ModifierSet) (o : Owner) : List String :=
  (s.toList.filter fun m => o.owns m.owner).filterMap Modifier.keyword?

def render (s : ModifierSet) (o : Owner) : String := " ".intercalate (s.keywords o)

/-- The keywords with a space after each, to stand before a declaration. -/
def renderLeading (s : ModifierSet) (o : Owner) : String :=
  String.join ((s.keywords o).map (· ++ " "))

def visibilities : List Modifier := [.public_, .protected_, .private_, .internal]

/-- Takes visibility from the metadata word and adds the modifiers found in it. Access flags cannot
say internal, and the field of a property is private whatever the property is. -/
def withWord (s : ModifierSet) (w : MetadataWord) (o : Owner) : ModifierSet :=
  let visibility : Modifier := match w.visibility with
    | .internal => .internal
    | .private_ => .private_
    | .protected_ => .protected_
    | .public_ => .public_
  ((visibilities.foldl erase s).insert visibility).union (ofWord w o)

end ModifierSet

end ClassSketch
