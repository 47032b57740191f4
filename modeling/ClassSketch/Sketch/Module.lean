import ClassSketch.Sketch.Workshop

/-! Declarations of modules. -/

namespace ClassSketch

namespace ModuleSketch

def requireText (r : ModuleRequirement) : String :=
  "requires " ++ (if r.transitive then "transitive " else "")
    ++ (if r.compileOnly then "static " else "") ++ r.module ++ ";"

def packageText (keyword : String) (p : ModulePackage) : String :=
  keyword ++ " " ++ Name.qualified p.package
    ++ (if p.targets.isEmpty then "" else " to " ++ ", ".intercalate p.targets) ++ ";"

def serviceText (s : ModuleService) : String :=
  "provides " ++ Name.qualified s.service ++ " with "
    ++ ", ".intercalate (s.providers.map Name.qualified) ++ ";"

def directives (m : ModuleDecl) : List String :=
  m.requires.map requireText ++ m.exports.map (packageText "exports")
    ++ m.opens.map (packageText "opens")
    ++ m.uses.map (fun s => "uses " ++ Name.qualified s ++ ";") ++ m.provides.map serviceText

/-- A module stands at the margin wherever it is written. -/
def write (annotations : List String) (m : ModuleDecl) (d : Draft) : Draft :=
  let d := d.writeLines 0 (annotations.map annotationText)
  let d := d.writeLine 0 ((if m.isOpen then "open " else "") ++ "module " ++ m.name ++ " \x7b")
  (d.writeLines 1 (directives m)).writeLine 0 "\x7d"

end ModuleSketch

end ClassSketch
