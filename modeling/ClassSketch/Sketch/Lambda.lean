import ClassSketch.Sketch.Class

/-! Expressions for what bodies create: lambdas, references to methods, and anonymous or local
classes. -/

namespace ClassSketch

variable {σ : Type}

/-- A reference to the target of a call site. -/
def CallSite.referenceText (spell : String → String) (s : CallSite) : String :=
  spell s.targetClass ++ "::" ++ if s.targetMethod = "<init>" then "new" else s.targetMethod

/-- The method that holds the body of a lambda, with the number of its parameters that are captured
and of those that are not. -/
def Lambda.target? (home : ClassDecl) (s : CallSite) : Option (MethodDecl × Nat × Nat) := do
  let m ← home.method? s.targetMethod s.targetDescriptor
  let content ← (Signature.parseMethodDescriptor s.targetDescriptor).toOption
  let shown ← (Signature.parseMethodDescriptor s.methodDescriptor).toOption
  let captured := content.params.length - shown.params.length
  return (m, captured, content.params.length - captured)

namespace Workshop

def warn (w : Warning) (shop : Workshop σ) : Workshop σ :=
  { shop with warnings := shop.warnings ++ [w] }

/-- The body of a lambda, or why there is none. -/
def lambdaBody (k : Kit σ) (site : BodySite) (shop : Workshop σ) :
    Except String String × Workshop σ :=
  let ((outcome, _), memory) := k.renderer.body site {} shop.memory
  let shop := { shop with memory }
  match outcome with
  | .ok body => (if body.flagged then .error "rendered with errors" else .ok body.text, shop)
  | .error failure =>
    let cause := match failure with
      | .crash _ => "panicked: " ++ failure.message
      | _ => failure.message
    (.error cause, shop)

/-- The expression for the lambda at a node; a node that is no lambda has none. `spell` gives the
name of a class. -/
def lambdaText (k : Kit σ) (spell : String → String) (level : Nat) (n : ClassNode)
    (shop : Workshop σ) : String × Workshop σ :=
  match n.lambda with
  | none => ("", shop)
  | some l =>
    if l.isReference then (l.site.referenceText spell, shop)
    else
      match Lambda.target? n.decl l.site with
      | none => (l.site.referenceText spell, shop)
      | some (m, captured, shown) =>
        let layout := k.options.layout
        let params := (List.range shown).map fun i => k.parameterName n.decl m (captured + i) i
        let (body, shop) := lambdaBody k ⟨n.decl, m, level + 1, layout, n.name⟩ shop
        let (text, shop) := match body with
          | .ok text => (text, shop)
          | .error cause =>
            (layout.indentText (level + 1) ++ placeholder ++ layout.separator,
              shop.warn (.failedLambda n.decl.name m.name cause))
        ("(" ++ ", ".intercalate params ++ ") -> \x7b" ++ layout.separator ++ text
          ++ layout.indentText level ++ "\x7d", shop)

/-- A class of a tree by itself, in a draft of its own. -/
def draftClass (k : Kit σ) (root : String) (level : Nat) (t : Tree ClassNode) (shop : Workshop σ) :
    Draft × Workshop σ :=
  let (_, bench) := TypeSketch.sketch k level t ⟨shop, .ofRoot root k.options.layout⟩
  (bench.draft, bench.shop)

end Workshop

end ClassSketch
