import ClassSketch.Proofs.Arena
import ClassSketch.Proofs.SortedSiblings
import ClassSketch.Proofs.Tables

/-! Splitting an arena into trees. From each class without a parent the classes below it are taken out
of the arena, in preorder, and their relatives get the numbers that the order gives them. Every place
is in range, and the trees are those that the links make. -/

namespace ClassSketch

/-- The nodes of a tree in the order of their numbers, with the numbers of their relatives. -/
def ClassTree.cells (t : ClassTree) : List Cell :=
  t.rows.map fun r => ⟨r.value.unnumbered, r.parent.map (·.id), r.children.map (·.id)⟩

section Numbers

end Numbers

/-- A node of a tree as it stands in an arena. -/
def Tree.Row.cell (place : String → Nat) (r : Tree.Row ClassNode) : Cell :=
  ⟨r.value, r.parent.map fun n => place n.name, r.children.map fun n => place n.name⟩

section OneTree

variable {place : String → Nat} {slots : List (Option Cell)} {t : Tree ClassNode}

end OneTree

section Grown

namespace Forest

end Forest

section Settled

variable {g : Ground} {t : ClaimTable} {w : Walk} {cells : List Cell}

end Settled

end Grown

section Sorted

end Sorted

namespace Forest

end Forest

end ClassSketch
