import ClassSketch.Json.Decode
import ClassSketch.Text.Buffer

/-! What can be chosen about a sketch. -/

namespace ClassSketch

structure Options where
  /-- Put nested classes into the classes that enclose them. -/
  nest : Bool := true
  /-- Look at the enclosing code before a class is taken for anonymous. -/
  verifyAnonymous : Bool := true
  hideSynthetic : Bool := false
  hideBridges : Bool := true
  hideDefaultConstructor : Bool := true
  enumSyntax : Bool := true
  genericSignatures : Bool := true
  warnInconsistent : Bool := true
  appendLineMap : Bool := false
  useParameterNames : Bool := true
  layout : Text.Layout := {}
  allowedPrefixes : List String := []
deriving DecidableEq, Inhabited

namespace Options

/-- Classes are sketched if they start with an allowed prefix; without prefixes all are. -/
def allows (o : Options) (name : String) : Bool :=
  o.allowedPrefixes.isEmpty || o.allowedPrefixes.any fun p => Text.startsWith p name

def keys : List String :=
  ["decompile_inner", "verify_anonymous_classes", "remove_synthetic", "remove_bridge",
    "hide_default_constructor", "decompile_enum", "decompile_generic_signatures",
    "warn_inconsistent_inner_classes", "bytecode_source_mapping", "use_method_parameters",
    "indent_string", "line_separator", "allowed_prefixes"]

/-- Every key may be left out, and no other key may be there. -/
def load? (j : Json) : Option Options := do
  let ms ← j.members? keys
  guard (ms.all fun m => keys.contains m.1)
  let base : Options := {}
  let nest ← ms.defaulted? "decompile_inner" base.nest Json.bool?
  let verifyAnonymous ← ms.defaulted? "verify_anonymous_classes" base.verifyAnonymous Json.bool?
  let hideSynthetic ← ms.defaulted? "remove_synthetic" base.hideSynthetic Json.bool?
  let hideBridges ← ms.defaulted? "remove_bridge" base.hideBridges Json.bool?
  let hideDefaultConstructor ←
    ms.defaulted? "hide_default_constructor" base.hideDefaultConstructor Json.bool?
  let enumSyntax ← ms.defaulted? "decompile_enum" base.enumSyntax Json.bool?
  let genericSignatures ←
    ms.defaulted? "decompile_generic_signatures" base.genericSignatures Json.bool?
  let warnInconsistent ←
    ms.defaulted? "warn_inconsistent_inner_classes" base.warnInconsistent Json.bool?
  let appendLineMap ← ms.defaulted? "bytecode_source_mapping" base.appendLineMap Json.bool?
  let useParameterNames ← ms.defaulted? "use_method_parameters" base.useParameterNames Json.bool?
  let indent ← ms.defaulted? "indent_string" base.layout.indent Json.text?
  let separator ← ms.defaulted? "line_separator" base.layout.separator Json.text?
  let allowedPrefixes ← ms.defaulted? "allowed_prefixes" base.allowedPrefixes Json.texts?
  return { nest, verifyAnonymous, hideSynthetic, hideBridges, hideDefaultConstructor, enumSyntax,
           genericSignatures, warnInconsistent, appendLineMap, useParameterNames,
           layout := { indent, separator }, allowedPrefixes }

def store (o : Options) : Json :=
  .object [("decompile_inner", .bool o.nest),
    ("verify_anonymous_classes", .bool o.verifyAnonymous),
    ("remove_synthetic", .bool o.hideSynthetic), ("remove_bridge", .bool o.hideBridges),
    ("hide_default_constructor", .bool o.hideDefaultConstructor),
    ("decompile_enum", .bool o.enumSyntax),
    ("decompile_generic_signatures", .bool o.genericSignatures),
    ("warn_inconsistent_inner_classes", .bool o.warnInconsistent),
    ("bytecode_source_mapping", .bool o.appendLineMap),
    ("use_method_parameters", .bool o.useParameterNames),
    ("indent_string", .text o.layout.indent), ("line_separator", .text o.layout.separator),
    ("allowed_prefixes", .texts o.allowedPrefixes)]

end Options

end ClassSketch
