import Highlight.Position
import Highlight.Text

/-!
# Following lines by offset

A locator answers for the position of byte offsets that are asked for in order, and is told about
the newlines between two offsets once they have been passed. It is lazy: it knows one offset on the
current line and the column there, and reads on from that when a later one is asked for.

A position that is asked for does not move the line, whatever lies in between: only what was passed
does.
-/

namespace Highlight

/-- The characters of a text that start between two byte offsets, the second one excluded. -/
def startingBetween : Nat → Nat → List Char → List Char
  | _, _, [] => []
  | _, 0, _ => []
  | 0, stop, c :: s => c :: startingBetween 0 (stop - c.utf8Size) s
  | start, stop, c :: s => startingBetween (start - c.utf8Size) (stop - c.utf8Size) s

/-- The byte offsets of the newlines of a text that begins at a given offset. -/
def newlineOffsets (offset : Nat) : List Char → List Nat
  | [] => []
  | c :: s =>
    if c = '\n' then offset :: newlineOffsets (offset + c.utf8Size) s
    else newlineOffsets (offset + c.utf8Size) s

/-- What is known about lines and columns at one point of a text. -/
structure Locator where
  text : List Char
  tabSize : Nat
  line : Nat
  /-- An offset on the current line. -/
  known : Nat
  /-- The column of that offset. -/
  column : Nat
  deriving DecidableEq, Repr

namespace Locator

/-- A locator for the text from an offset on, which is where line one and column one are. -/
def start (text : List Char) (offset tabSize : Nat) : Locator where
  text
  tabSize := Position.tabStops tabSize
  line := 1
  known := offset
  column := 1

/-- The position of an offset. An offset behind the text adds no columns. -/
def position (locator : Locator) (offset : Nat) : Position × Locator :=
  let passed :=
    if offset ≤ byteSize locator.text then startingBetween locator.known offset locator.text else []
  let column := passed.foldl (Position.columnAfter locator.tabSize) locator.column
  (⟨locator.line, column⟩, { locator with known := max locator.known offset, column })

/-- The locator behind the newlines between two offsets. Offsets that are no range of the text
change nothing. -/
def pass (locator : Locator) (start stop : Nat) : Locator :=
  let newlines :=
    if stop ≤ byteSize locator.text then
      (newlineOffsets 0 locator.text).filter fun offset => start ≤ offset && offset < stop
    else []
  match newlines.getLast? with
  | none => locator
  | some last =>
    { locator with
      line := min (locator.line + newlines.length) Position.limit
      known := last + 1
      column := 1 }

end Locator

end Highlight
