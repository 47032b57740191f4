import ClassSketch.Nesting.Claim
import ClassSketch.Text.Quoted

/-! What went wrong without stopping anything. -/

namespace ClassSketch

/-- The method that a warning is about. -/
structure MethodSite where
  className : String
  methodName : String
  descriptor : String
deriving DecidableEq, Inhabited

inductive Warning where
  /-- Two claims describe a class differently. -/
  | conflictingClaims (old new : Claim)
  /-- Others claim that a class has nested classes, and it lists none. -/
  | noNestingEntries (name : String)
  | nestedMissing (name : String)
  | alreadyNested (name : String)
  /-- An anonymous class that does not have exactly one supertype. -/
  | anonymousShape (name : String)
  /-- An anonymous class that is used in more than one place or as a type. -/
  | anonymousReferences (name enclosing method : String)
  | unreadableCode (method className reason : String)
  | flaggedBody (site : MethodSite)
  | failedBody (site : MethodSite) (cause : String)
  | crashedBody (site : MethodSite) (cause : String)
  | failedLambda (className method cause : String)
deriving DecidableEq

namespace Warning

def claimText (c : Claim) : String :=
  Text.quotedOption c.simpleName ++ " " ++ c.kind.word ++ " 0x"
    ++ String.ofList (Text.hexPadded 4 c.access.toNat) ++ " (from " ++ c.source ++ ")"

def siteText (s : MethodSite) : String :=
  " class=" ++ s.className ++ " method=" ++ s.methodName ++ " descriptor=" ++ s.descriptor

def message : Warning → String
  | conflictingClaims old new =>
    "Inconsistent inner class entries for " ++ new.inner ++ "!\n  Old: " ++ claimText old
      ++ "\n  New: " ++ claimText new
  | noNestingEntries name => name ++ " does not contain inner classes!"
  | nestedMissing name => "Nested class " ++ name ++ " missing!"
  | alreadyNested name => "Nested class " ++ name ++ " is already attached, skipping"
  | anonymousShape name => "Inconsistent anonymous class definition: " ++ name
  | anonymousReferences name enclosing method =>
    "Inconsistent references to anonymous class " ++ name ++ " in " ++ enclosing ++ "." ++ method
  | unreadableCode method className reason =>
    "Could not read method " ++ method ++ " of " ++ className ++ ": " ++ reason
  | flaggedBody site => "method body rendered with errors" ++ siteText site
  | failedBody site cause =>
    "method could not be decompiled" ++ siteText site ++ " error=" ++ cause
  | crashedBody site cause =>
    "method body renderer panicked" ++ siteText site ++ " panic=" ++ cause
  | failedLambda className method cause =>
    "lambda body could not be decompiled class=" ++ className ++ " method=" ++ method
      ++ " cause=" ++ cause

end Warning

end ClassSketch
