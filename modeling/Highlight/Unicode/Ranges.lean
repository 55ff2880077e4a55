/-!
# Tables of code point ranges

A property of characters is a list of closed ranges of code points, in ascending order. The tables
are those of Unicode 17.0.
-/

namespace Highlight.Unicode

/-- Closed ranges of code points. -/
abbrev Ranges := List (Nat × Nat)

/-- Whether the code point of a character lies in one of the ranges. -/
def Ranges.contains (ranges : Ranges) (c : Char) : Bool :=
  ranges.any fun range => range.1 ≤ c.toNat && c.toNat ≤ range.2

end Highlight.Unicode
