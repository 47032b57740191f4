import ClassSketch.Command.Run

/-! The command line. -/

namespace ClassSketch

/-- Reads the files that a request names. -/
def Request.paths : Request → List String
  | sketch r => r.inputs.options.toList ++ r.bodies.toList ++ [r.inputs.classes]
  | outline i => i.options.toList ++ [i.classes]
  | help | version => []

def readFiles : List String → IO (List (String × Except String String))
  | [] => return []
  | path :: paths => do
    let text ← (IO.FS.readFile path).toBaseIO
    let others ← readFiles paths
    return (path, text.mapError fun e => e.toString) :: others

def writeSources (dir : Path) : List SourceFile → IO Unit
  | [] => return
  | f :: fs => do
    let path := f.pathIn dir
    unless path.parent.toString.isEmpty do IO.FS.createDirAll path.parent.toString
    IO.FS.writeFile path.toString f.text
    writeSources dir fs

def logWarnings (l : Logging) (warnings : List Warning) : IO Unit := do
  if l.level == .error then return
  let out ← IO.getStderr
  warnings.forM fun w =>
    let line := match l.format with
      | .text => "WARN " ++ w.message
      | .json => (Json.object [("level", .text "WARN"), ("message", .text w.message)]).compact
    out.putStrLn line

def fail (f : Failure) : IO UInt32 := do
  (← IO.getStderr).putStrLn ("error: " ++ f.message)
  return f.status.code.toUInt32

def runRequest (request : Request) (l : Logging) : IO UInt32 := do
  let texts ← readFiles request.paths
  match request.run fun path => (texts.lookup path).getD (.error path) with
  | .error f => fail f
  | .ok (product, warnings) =>
    logWarnings l warnings
    match product with
    | .printed text =>
      let out ← IO.getStdout
      out.putStr text
      out.flush
      return 0
    | .files dir files =>
      match ← (writeSources dir files).toBaseIO with
      | .ok _ => return 0
      | .error e => fail (.io e.toString)

end ClassSketch

def main (args : List String) : IO UInt32 := do
  match ClassSketch.Request.parse args with
  | .error e =>
    (← IO.getStderr).putStrLn ("error: " ++ e.message)
    return ClassSketch.ExitStatus.invalidArguments.code.toUInt32
  | .ok (request, l) => ClassSketch.runRequest request l
