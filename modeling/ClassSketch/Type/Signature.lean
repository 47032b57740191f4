import ClassSketch.Type.Basic

/-! Descriptors and generic signatures.

    Type   ::= one of BCDFIJSZ | Ref
    Ref    ::= 'L' Head Args? ('.' Ident Args?)* ';' | 'T' Ident ';' | '[' Type
    Args   ::= '<' Arg+ '>'
    Arg    ::= '*' | '+' Ref | '-' Ref | Ref
    Params ::= '<' (Ident ':' Ref? (':' Ref)*)+ '>'

The segments of a dotted class type are joined by `$`, and only the arguments of the last segment
are kept. Choices are ordered: a bound that cannot be read counts as absent, and what follows is
read as the next parameter. -/

namespace ClassSketch

structure TypeParameter where
  name : String
  bounds : List JType

/-- The bounds that are written out; `Object` alone is implied. -/
def TypeParameter.visibleBounds (p : TypeParameter) : List JType :=
  match p.bounds with
  | [b] => if b.isObject then [] else [b]
  | bs => bs

structure ClassSignature where
  typeParams : List TypeParameter
  superclass : JType
  interfaces : List JType

def ClassSignature.paramNames (s : ClassSignature) : List String := s.typeParams.map (·.name)

structure MethodDescriptor where
  params : List JType
  result : JType

structure MethodSignature where
  typeParams : List TypeParameter
  params : List JType
  result : JType
  throws : List JType

inductive SignatureForm where
  | fieldType | methodDescriptor | methodSignature | classSignature
deriving DecidableEq

def SignatureForm.label : SignatureForm → String
  | fieldType => "field type"
  | methodDescriptor => "method descriptor"
  | methodSignature => "method signature"
  | classSignature => "class signature"

/-- Why a text is not of its form: nothing could be read, or something was left over. -/
inductive SignatureFault where
  | unreadable
  | trailing (rest : String)
deriving DecidableEq

structure SignatureError where
  form : SignatureForm
  input : String
  fault : SignatureFault
deriving DecidableEq

def SignatureFault.message : SignatureFault → String
  | unreadable => "Backtrack(ContextError \x7b context: [], cause: None \x7d)"
  | trailing rest => "trailing input '" ++ rest ++ "'"

def SignatureError.message (e : SignatureError) : String :=
  "invalid " ++ e.form.label ++ " '" ++ e.input ++ "': " ++ e.fault.message

namespace Signature

abbrev Read (α : Type) := Option (α × List Char)

def isHeadChar (c : Char) : Bool := !(c == '<' || c == '.' || c == ';')

def isIdentChar (c : Char) : Bool :=
  !(c == '.' || c == ';' || c == '[' || c == '/' || c == '<' || c == '>' || c == ':')

/-- The longest run of characters of a class, which must not be empty. -/
def readRun (p : Char → Bool) (cs : List Char) : Read (List Char) :=
  match cs.takeWhile p with
  | [] => none
  | run => some (run, cs.dropWhile p)

def readVariable (cs : List Char) : Read JType :=
  match readRun isIdentChar cs with
  | some (name, ';' :: rest) => some (.var (String.ofList name) 0, rest)
  | _ => none

mutual

def readType : Nat → List Char → Read JType
  | 0, _ => none
  | _, [] => none
  | fuel + 1, c :: rest =>
    match Primitive.ofLetter? c with
    | some .void => none
    | some p => some (.prim p 0, rest)
    | none => readReference fuel (c :: rest)

def readReference : Nat → List Char → Read JType
  | 0, _ => none
  | fuel + 1, 'L' :: rest =>
    match readRun isHeadChar rest with
    | some (head, '<' :: rest) =>
      match readArgs fuel rest with
      | some (args, rest) => readSegments fuel (String.ofList head) args rest
      | none => none
    | some (head, rest) => readSegments fuel (String.ofList head) [] rest
    | none => none
  | _ + 1, 'T' :: rest => readVariable rest
  | fuel + 1, '[' :: rest => (readType fuel rest).map fun (t, rest) => (t.arrayOf 1, rest)
  | _ + 1, _ => none

/-- What follows the first segment of a class type and its arguments. -/
def readSegments : Nat → String → List TypeArg → List Char → Read JType
  | 0, _, _, _ => none
  | _ + 1, name, args, ';' :: rest => some (.named name args 0, rest)
  | fuel + 1, name, _, '.' :: rest =>
    match readRun isIdentChar rest with
    | some (inner, '<' :: rest) =>
      match readArgs fuel rest with
      | some (args, rest) => readSegments fuel (name ++ "$" ++ String.ofList inner) args rest
      | none => none
    | some (inner, rest) => readSegments fuel (name ++ "$" ++ String.ofList inner) [] rest
    | none => none
  | _ + 1, _, _, _ => none

/-- One argument or more, up to the closing bracket. -/
def readArgs : Nat → List Char → Read (List TypeArg)
  | 0, _ => none
  | fuel + 1, cs =>
    match readArg fuel cs with
    | some (a, '>' :: rest) => some ([a], rest)
    | some (a, rest) => (readArgs fuel rest).map fun (as, rest) => (a :: as, rest)
    | none => none

def readArg : Nat → List Char → Read TypeArg
  | 0, _ => none
  | _ + 1, '*' :: rest => some (.wildcard, rest)
  | fuel + 1, '+' :: rest => (readReference fuel rest).map fun (t, rest) => (.upper t, rest)
  | fuel + 1, '-' :: rest => (readReference fuel rest).map fun (t, rest) => (.lower t, rest)
  | fuel + 1, cs => (readReference fuel cs).map fun (t, rest) => (.exact t, rest)

end

/-- Enough steps for any type in a text: at most three for each character. -/
def steps (cs : List Char) : Nat := 3 * cs.length + 3

def typeAt (cs : List Char) : Read JType := readType (steps cs) cs

def referenceAt (cs : List Char) : Read JType := readReference (steps cs) cs

def classAt : List Char → Read JType
  | 'L' :: rest => referenceAt ('L' :: rest)
  | _ => none

/-- As many values as can be read one after the other; each takes at least one character. -/
def readMany {α : Type} (read : List Char → Read α) : Nat → List Char → List α × List Char
  | 0, cs => ([], cs)
  | fuel + 1, cs =>
    match read cs with
    | some (a, rest) =>
      let (as, rest) := readMany read fuel rest
      (a :: as, rest)
    | none => ([], cs)

def many {α : Type} (read : List Char → Read α) (cs : List Char) : List α × List Char :=
  readMany read cs.length cs

def readBound : List Char → Read JType
  | ':' :: rest => referenceAt rest
  | _ => none

def readParam (cs : List Char) : Read TypeParameter :=
  match readRun isIdentChar cs with
  | some (name, ':' :: rest) =>
    let (classBound, rest) := match referenceAt rest with
      | some (t, rest) => ([t], rest)
      | none => ([], rest)
    let (bounds, rest) := many readBound rest
    let bounds := classBound ++ bounds
    some (⟨String.ofList name, if bounds.isEmpty then [JType.object] else bounds⟩, rest)
  | _ => none

/-- Type parameters in brackets, when they stand there and can be read. -/
def readParams (cs : List Char) : List TypeParameter × List Char :=
  match cs with
  | '<' :: rest =>
    match many readParam rest with
    | (p :: ps, '>' :: rest) => (p :: ps, rest)
    | _ => ([], cs)
  | _ => ([], cs)

def readResult : List Char → Read JType
  | 'V' :: rest => some (.prim .void 0, rest)
  | cs => typeAt cs

def readMethod : List Char → Read MethodDescriptor
  | '(' :: rest =>
    match many typeAt rest with
    | (params, ')' :: rest) => (readResult rest).map fun (t, rest) => (⟨params, t⟩, rest)
    | _ => none
  | _ => none

def readThrown : List Char → Read JType
  | '^' :: rest => referenceAt rest
  | _ => none

def readMethodSignature (cs : List Char) : Read MethodSignature :=
  let (typeParams, rest) := readParams cs
  match readMethod rest with
  | some (d, rest) =>
    let (throws, rest) := many readThrown rest
    some (⟨typeParams, d.params, d.result, throws⟩, rest)
  | none => none

def readClassSignature (cs : List Char) : Read ClassSignature :=
  let (typeParams, rest) := readParams cs
  match classAt rest with
  | some (superclass, rest) =>
    let (interfaces, rest) := many classAt rest
    some (⟨typeParams, superclass, interfaces⟩, rest)
  | none => none

/-- Reads the whole of a text. -/
def whole {α : Type} (form : SignatureForm) (read : List Char → Read α) (input : String) :
    Except SignatureError α :=
  match read input.toList with
  | some (a, []) => .ok a
  | some (_, rest) => .error ⟨form, input, .trailing (String.ofList rest)⟩
  | none => .error ⟨form, input, .unreadable⟩

def parseFieldType (input : String) : Except SignatureError JType := whole .fieldType typeAt input

def parseMethodDescriptor (input : String) : Except SignatureError MethodDescriptor :=
  whole .methodDescriptor readMethod input

def parseMethodSignature (input : String) : Except SignatureError MethodSignature :=
  whole .methodSignature readMethodSignature input

def parseClassSignature (input : String) : Except SignatureError ClassSignature :=
  whole .classSignature readClassSignature input

end Signature

end ClassSketch
