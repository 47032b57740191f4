/-! Internal names such as `java/util/Map$Entry`: a package, a slash, and a simple name in which a
dollar divides nested classes. -/

namespace ClassSketch.Name

def objectClass : String := "java/lang/Object"

/-- The characters after the last `sep`, all of them when there is none. -/
def afterLast (sep : Char) (cs : List Char) : List Char :=
  (cs.reverse.takeWhile (· != sep)).reverse

/-- The characters before the last `sep`, none of them when there is none. -/
def beforeLast (sep : Char) (cs : List Char) : List Char :=
  ((cs.reverse.dropWhile (· != sep)).drop 1).reverse

def simple (name : String) : String := String.ofList (afterLast '/' name.toList)

def package (name : String) : String := String.ofList (beforeLast '/' name.toList)

def replaceChars (p : Char → Bool) (by_ : Char) (s : String) : String :=
  String.ofList (s.toList.map fun c => if p c then by_ else c)

/-- The whole name with dots, `java.util.Map.Entry`. -/
def qualified (name : String) : String := replaceChars (fun c => c == '/' || c == '$') '.' name

/-- The simple name with dots, `Map.Entry`. -/
def nestedPath (name : String) : String := replaceChars (· == '$') '.' (simple name)

def dottedPackage (package : String) : String := replaceChars (· == '/') '.' package

/-- The part after the last dollar of the simple name. -/
def lastSegment (name : String) : String := String.ofList (afterLast '$' (simple name).toList)

/-- The top-level class that encloses a name. A dollar that leads the simple name belongs to it. -/
def topLevel (name : String) : String :=
  let simple := afterLast '/' name.toList
  match simple.takeWhile (· != '$') with
  | [] => name
  | top => String.ofList (name.toList.take (name.toList.length - simple.length) ++ top)

end ClassSketch.Name
