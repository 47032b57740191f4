import ClassSketch.Render.Prepared

/-! A renderer that follows a script, to try out what happens when bodies fail. What the script says
nothing about is taken from prepared bodies. -/

namespace ClassSketch

/-- How the body of a method goes wrong. -/
inductive Mishap where
  | failed | unsupported | io
  | crash (message : Option String)
  /-- A body that is flagged after an offset was marked. -/
  | partialBody
  /-- Only the first of all such bodies fails. -/
  | failedOnce
deriving DecidableEq

/-- Text to be used as it is, with offsets that are marked one per line. -/
structure RawBody where
  text : String
  offsets : List Nat := []

structure Script where
  /-- By the name of the method. -/
  mishaps : List (String × Mishap) := []
  /-- All others by the full key of the member. -/
  raw : List (String × RawBody) := []
  exits : List (String × Nat) := []
  parameters : List (String × List (Option String)) := []
  added : List (String × List Bool) := []

namespace Script

/-- What a renderer keeps in mind: whether a body that fails once has failed. -/
structure Memory where
  failedOnce : Bool := false
deriving DecidableEq, Inhabited

def markLines (offsets : List Nat) (t : Trace) : Trace :=
  offsets.foldl (fun t o => (t.mark o).advance 1) t

def plainBody (s : Script) (p : PreparedBodies) (site : BodySite) (t : Trace) : Body × Trace :=
  match s.raw.lookup (site.method.fullKey site.decl) with
  | some raw => ({ text := raw.text }, markLines raw.offsets t)
  | none => p.render site t

def body (s : Script) (p : PreparedBodies) (site : BodySite) (t : Trace) :
    StateM Memory (Except BodyFailure Body × Trace) := fun memory =>
  let plain : Except BodyFailure Body × Trace :=
    let (body, t) := s.plainBody p site t
    (.ok body, t)
  match s.mishaps.lookup site.method.name with
  | none => (plain, memory)
  | some .failed => ((.error (.failed site.method.key "stack underflow"), t), memory)
  | some .unsupported =>
    ((.error (.unsupported site.method.name ("jsr in " ++ site.currentClass)), t), memory)
  | some .io => ((.error (.io "short read"), t), memory)
  | some (.crash m) => ((.error (.crash m), t), memory)
  | some .partialBody => ((.ok { text := "partial", flagged := true }, t.mark 0), memory)
  | some .failedOnce =>
    if memory.failedOnce then (plain, memory)
    else ((.error (.failed site.method.name "first time"), t), { failedOnce := true })

def renderer (s : Script) (p : PreparedBodies) : Renderer Memory where
  body := s.body p
  exitOffset site := s.exits.lookup (site.method.fullKey site.decl)
  initializer := (p.renderer Memory).initializer
  hidden := (p.renderer Memory).hidden
  callSites := (p.renderer Memory).callSites
  parameterName c m i := ((s.parameters.lookup (m.fullKey c)).getD [])[i]?.join
  addedParameters c m := s.added.lookup (m.fullKey c)

end Script

end ClassSketch
