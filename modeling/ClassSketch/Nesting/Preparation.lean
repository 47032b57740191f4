import ClassSketch.Nesting.Node

/-! The order in which the classes of a file are made ready. Classes that hold the tables of
switches come before the classes that read them. -/

namespace ClassSketch

/-- A synthetic class with a static initializer as its only method and only synthetic constant
arrays of integers as fields. -/
def ClassDecl.holdsSwitchTables (c : ClassDecl) : Bool :=
  c.isSynthetic
    && (match c.methods with
      | [m] => m.isStaticInit
      | _ => false)
    && c.fields.all fun f =>
      f.access.has (AccessFlags.staticFlag.union .finalFlag) && f.isSynthetic
        && f.descriptor == "[I"

namespace ClassTree

mutual

/-- The subtrees of children with switch tables, the node, and the other subtrees. -/
def orderFrom : Tree ClassNode → List ClassNode
  | .node n ts => orderWhere true ts ++ n :: orderWhere false ts

def orderWhere (first : Bool) : List (Tree ClassNode) → List ClassNode
  | [] => []
  | t :: ts =>
    if t.value.decl.holdsSwitchTables == first then orderFrom t ++ orderWhere first ts
    else orderWhere first ts

end

def preparationOrder (t : ClassTree) : List ClassNode := orderFrom t.tree

/-- The classes to be made ready; lambdas are part of the class they lie in. -/
def preparedClasses (t : ClassTree) : List ClassDecl :=
  (t.preparationOrder.filter fun n => !n.isLambda).map (·.decl)

end ClassTree

end ClassSketch
