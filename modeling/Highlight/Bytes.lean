import Highlight.Text

/-!
# The bytes of a text

The UTF-8 encoding of a text, and what its bytes tell about its characters: the first byte of a
character gives the number of bytes it takes.
-/

namespace Highlight

/-- The bytes of a text in UTF-8. -/
def utf8 (s : List Char) : List UInt8 :=
  s.flatMap String.utf8EncodeChar

/-- Number of bytes of the character that begins with a byte. A byte that begins none counts
alone. -/
def charWidth (byte : UInt8) : Nat :=
  if 0xC0 ≤ byte ∧ byte ≤ 0xDF then 2
  else if 0xE0 ≤ byte ∧ byte ≤ 0xEF then 3
  else if 0xF0 ≤ byte ∧ byte ≤ 0xF7 then 4
  else 1

theorem charWidth_pos (byte : UInt8) : 0 < charWidth byte := by
  unfold charWidth
  repeat' split
  all_goals decide

/-- The offset behind the character that begins at an offset. An offset inside a character moves by
one byte, and one behind the text does not move. -/
def nextBoundary (text : List Char) (offset : Nat) : Nat :=
  match (utf8 text)[offset]? with
  | some byte => min (offset + charWidth byte) (byteSize text)
  | none => offset

end Highlight
