/-!
# Positions

Lines and columns count from one. A character takes one column, whatever its size, and a tab goes to
the next stop. Both counts stay at the greatest 32-bit number once they reach it.
-/

namespace Highlight

/-- A line and a column, both from one. -/
structure Position where
  line : Nat := 1
  column : Nat := 1
  deriving DecidableEq, Repr

namespace Position

/-- The greatest line and the greatest column there is. -/
def limit : Nat := UInt32.size - 1

/-- The distance of tab stops that a wish for one stands for: a stop is at least one column wide. -/
def tabStops (wish : Nat) : Nat := max wish 1

/-- The column behind a character that does not end a line. -/
def columnAfter (tabSize column : Nat) (c : Char) : Nat :=
  if c = '\t' then min (((column - 1) / tabSize + 1) * tabSize + 1) limit
  else min (column + 1) limit

end Position

end Highlight
