/-! The arguments of the command line. Options start with two dashes; a value follows after a blank
or an equals sign. They are read from left to right, and the first mistake counts. -/

namespace ClassSketch

inductive UsageError where
  | unknownArgument (arg : String)
  | missingValue (option : String)
  | unneededValue (option : String)
  | badValue (option value : String)
  | repeated (option : String)
  | missingOption (option : String)
  | unknownCommand (name : String)
  | noCommand
deriving DecidableEq

def UsageError.message : UsageError → String
  | unknownArgument arg => "unexpected argument '" ++ arg ++ "'"
  | missingValue option => "a value is required for '--" ++ option ++ "'"
  | unneededValue option => "unexpected value for '--" ++ option ++ "'"
  | badValue option value => "invalid value '" ++ value ++ "' for '--" ++ option ++ "'"
  | repeated option => "'--" ++ option ++ "' cannot be used multiple times"
  | missingOption option => "'--" ++ option ++ "' is required"
  | unknownCommand name => "unrecognized subcommand '" ++ name ++ "'"
  | noCommand => "a subcommand is required"

/-- What the value of an option may be. -/
inductive ValueKind where
  | text
  /-- A path, which is not empty. -/
  | path
  | oneOf (values : List String)
deriving DecidableEq

def ValueKind.accepts : ValueKind → String → Bool
  | text, _ => true
  | path, s => !s.isEmpty
  | oneOf values, s => values.contains s

/-- An option; one without a kind of value is a switch. -/
structure OptionSpec where
  name : String
  value : Option ValueKind := none

/-- The options given so far; the value of a switch is empty. -/
abbrev Settings := List (String × String)

/-- Where reading stopped. -/
inductive Scanned where
  | all (given : Settings)
  /-- At an argument that is no option. -/
  | word (given : Settings) (word : String) (rest : List String)
  | help
  | version

namespace Arguments

/-- Splits `--name=value`; `none` for what is no such option. -/
def longOption? (arg : String) : Option (String × Option String) :=
  match arg.toList with
  | '-' :: '-' :: c :: cs =>
    let name := (c :: cs).takeWhile (· != '=')
    match (c :: cs).dropWhile (· != '=') with
    | [] => some (String.ofList name, none)
    | _ :: value => some (String.ofList name, some (String.ofList value))
  | _ => none

/-- Arguments that start with a dash are no values, unless they are nothing else. -/
def looksLikeOption (arg : String) : Bool :=
  match arg.toList with
  | '-' :: _ :: _ => true
  | _ => false

def isShort (letter : Char) (arg : String) : Bool := ['-', letter].isPrefixOf arg.toList

def accept (given : Settings) (name : String) (kind : ValueKind) (value : String) :
    Except UsageError Settings :=
  if !kind.accepts value then .error (.badValue name value)
  else if (given.lookup name).isSome then .error (.repeated name)
  else .ok ((name, value) :: given)

/-- Reads arguments; `pending` is an option that still waits for its value. Only the outermost
command has a version. -/
def scan (specs : List OptionSpec) (hasVersion : Bool) :
    Settings → Option (String × ValueKind) → List String → Except UsageError Scanned
  | given, none, [] => .ok (.all given)
  | _, some (name, _), [] => .error (.missingValue name)
  | given, some (name, kind), arg :: rest =>
    if looksLikeOption arg then .error (.missingValue name)
    else do
      let given ← accept given name kind arg
      scan specs hasVersion given none rest
  | given, none, arg :: rest =>
    match longOption? arg with
    | some (name, value) =>
      match specs.find? (fun s => s.name == name), value with
      | some ⟨_, some kind⟩, some value => do
        let given ← accept given name kind value
        scan specs hasVersion given none rest
      | some ⟨_, some kind⟩, none => scan specs hasVersion given (some (name, kind)) rest
      | some ⟨_, none⟩, some _ => .error (.unneededValue name)
      | some ⟨_, none⟩, none => do
        let given ← accept given name .text ""
        scan specs hasVersion given none rest
      | none, some _ => .error (.unknownArgument arg)
      | none, none =>
        if name == "help" then .ok .help
        else if name == "version" && hasVersion then .ok .version
        else .error (.unknownArgument arg)
    | none =>
      if isShort 'h' arg then .ok .help
      else if isShort 'V' arg && hasVersion then .ok .version
      else if arg == "--" then
        match rest with
        | [] => .ok (.all given)
        | extra :: _ => .error (.unknownArgument extra)
      else if looksLikeOption arg then .error (.unknownArgument arg)
      else .ok (.word given arg rest)

end Arguments

inductive LogLevel where
  | trace | debug | info | warn | error
deriving DecidableEq, Inhabited

inductive LogFormat where
  | text | json
deriving DecidableEq, Inhabited

structure Logging where
  level : LogLevel := .warn
  format : LogFormat := .text
deriving DecidableEq, Inhabited

/-- What to load. -/
structure Inputs where
  classes : String
  options : Option String := none
  trustAnonymous : Bool := false
  rename : Bool := false
deriving DecidableEq, Inhabited

/-- Source files, of all classes or of the one that holds `className`, to a folder or to be
printed. -/
structure SketchRequest where
  inputs : Inputs
  bodies : Option String := none
  className : Option String := none
  out : Option String := none
  mapping : Bool := false
deriving DecidableEq, Inhabited

inductive Request where
  | sketch (request : SketchRequest)
  | outline (inputs : Inputs)
  | help
  | version
deriving DecidableEq

namespace Request

def logSpecs : List OptionSpec :=
  [⟨"log-level", some (.oneOf ["trace", "debug", "info", "warn", "error"])⟩,
    ⟨"log-format", some (.oneOf ["text", "json"])⟩]

def inputSpecs : List OptionSpec :=
  [⟨"classes", some .path⟩, ⟨"options", some .path⟩, ⟨"no-verify-anonymous", none⟩,
    ⟨"rename", none⟩]

def sketchSpecs : List OptionSpec :=
  [⟨"bodies", some .path⟩, ⟨"class", some .text⟩, ⟨"out", some .path⟩, ⟨"mapping", none⟩]

def isSet (s : Settings) (name : String) : Bool := (s.lookup name).isSome

def logging (s : Settings) : Logging :=
  { level := match s.lookup "log-level" with
      | some "trace" => .trace
      | some "debug" => .debug
      | some "info" => .info
      | some "error" => .error
      | _ => .warn
    format := if s.lookup "log-format" = some "json" then .json else .text }

def inputs (s : Settings) : Except UsageError Inputs :=
  match s.lookup "classes" with
  | none => .error (.missingOption "classes")
  | some classes => .ok
      { classes, options := s.lookup "options", trustAnonymous := isSet s "no-verify-anonymous"
        rename := isSet s "rename" }

/-- Reads the arguments of a subcommand, which takes no words; `given` are those before it. -/
def readCommand (specs : List OptionSpec) (make : Settings → Except UsageError Request)
    (given : Settings) (args : List String) : Except UsageError (Request × Logging) := do
  match ← Arguments.scan (specs ++ logSpecs) false [] none args with
  | .all s => return (← make s, logging (s ++ given))
  | .word _ word _ => .error (.unknownArgument word)
  | .help | .version => return (.help, {})

def makeSketch (s : Settings) : Except UsageError Request := do
  return .sketch
    { inputs := ← inputs s, bodies := s.lookup "bodies", className := s.lookup "class"
      out := s.lookup "out", mapping := isSet s "mapping" }

def makeOutline (s : Settings) : Except UsageError Request := do return .outline (← inputs s)

def commandNames : List String := ["emit", "tree", "help"]

/-- The words after `help` lead from command to command. No command has commands of its own, so only
one word can follow. -/
def readHelp : List String → Except UsageError Request
  | [] => .ok .help
  | [name] => if commandNames.contains name then .ok .help else .error (.unknownCommand name)
  | name :: inner :: _ =>
    .error (.unknownCommand (if commandNames.contains name then inner else name))

def parse (args : List String) : Except UsageError (Request × Logging) := do
  match ← Arguments.scan logSpecs true [] none args with
  | .all _ => .error .noCommand
  | .help => return (.help, {})
  | .version => return (.version, {})
  | .word given "emit" rest => readCommand (inputSpecs ++ sketchSpecs) makeSketch given rest
  | .word given "tree" rest => readCommand inputSpecs makeOutline given rest
  | .word _ "help" rest => return (← readHelp rest, {})
  | .word _ w _ => .error (.unknownCommand w)

end Request

end ClassSketch
