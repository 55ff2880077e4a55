import Highlight.Text

/-!
# Byte ranges

A range is asked for by two byte offsets, which may be anything. What is read is the part of the
text between two boundaries of characters: the greatest one not behind the end, and the greatest one
not behind the start and not behind that.
-/

namespace Highlight

/-- A range of bytes. -/
structure ByteRange where
  start : Nat
  stop : Nat
  deriving DecidableEq, Repr

namespace ByteRange

/-- The range of a whole text. -/
def whole (text : List Char) : ByteRange := ⟨0, byteSize text⟩

/-- The part of a text in front of the end of a range. -/
def upTo (range : ByteRange) (text : List Char) : List Char :=
  takeBytes range.stop text

/-- The part of a text that a range covers. -/
def slice (range : ByteRange) (text : List Char) : List Char :=
  dropBytes range.start (range.upTo text)

/-- The range between boundaries of characters that a range stands for. -/
def clamp (range : ByteRange) (text : List Char) : ByteRange where
  start := byteSize (takeBytes range.start (range.upTo text))
  stop := byteSize (range.upTo text)

end ByteRange

end Highlight
