/-! Sets of characters given by ranges of code points, as they are in Unicode 17. -/

namespace ClassSketch.Text

abbrev Ranges := List (Nat × Nat)

def Ranges.has (rs : Ranges) (c : Char) : Bool :=
  rs.any fun (low, high) => low ≤ c.toNat && c.toNat ≤ high

end ClassSketch.Text
