import ClassSketch.Type.Signature

/-! What can stop a run, and the status it ends with. Conflicting claims, classes that are not
anonymous after all and bodies that cannot be rendered do not stop anything: they are warnings. -/

namespace ClassSketch

inductive Failure where
  | invalidArguments (message : String)
  | classNotFound (name : String)
  | malformedType (owner : String) (cause : SignatureError)
  | io (message : String)
  | json (message : String)
  | internal (message : String)
deriving DecidableEq

inductive ExitStatus where
  | invalidArguments | classNotFound | ioError | internalError
deriving DecidableEq

def ExitStatus.code : ExitStatus → Nat
  | invalidArguments => 2
  | classNotFound => 3
  | ioError => 4
  | internalError => 10

namespace Failure

def message : Failure → String
  | invalidArguments m => "invalid arguments: " ++ m
  | classNotFound n => "class not found: " ++ n
  | malformedType owner cause => "malformed type in " ++ owner ++ ": " ++ cause.message
  | io m => "io error: " ++ m
  | json m => "json error: " ++ m
  | internal m => "internal error: " ++ m

def status : Failure → ExitStatus
  | invalidArguments _ | json _ => .invalidArguments
  | classNotFound _ => .classNotFound
  | io _ => .ioError
  | malformedType _ _ | internal _ => .internalError

end Failure

end ClassSketch
