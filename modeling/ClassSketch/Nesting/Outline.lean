import ClassSketch.Json.Value
import ClassSketch.Nesting.Node

/-! Trees of classes as JSON, for reading. -/

namespace ClassSketch

def ClassNode.outlineMembers (n : ClassNode) : List (String × Json) :=
  [("name", .text n.name), ("kind", .text n.kind.label)]
    ++ (n.simpleName.map fun s => ("simple_name", Json.text s)).toList
    ++ [("access", .ofNat n.access.toNat)]

namespace ClassTree

mutual

def outlineFrom : Tree ClassNode → Json
  | .node n ts =>
    .object (n.outlineMembers ++
      match outlineAll ts with
      | [] => []
      | items => [("children", .array items)])

def outlineAll : List (Tree ClassNode) → List Json
  | [] => []
  | t :: ts => outlineFrom t :: outlineAll ts

end

/-- Names that are absent and lists of children that are empty are left out. -/
def outline (t : ClassTree) : Json := outlineFrom t.tree

end ClassTree

end ClassSketch
