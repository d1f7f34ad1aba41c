/-! Character classes given as a table of code point ranges, both ends included. -/

namespace Unbundle.Text

abbrev Ranges := List (Nat × Nat)

def Ranges.has (ranges : Ranges) (c : Char) : Bool :=
  ranges.any fun r => r.1 ≤ c.toNat && c.toNat ≤ r.2

end Unbundle.Text
