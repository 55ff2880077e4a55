import Highlight.Offset

/-!
# Cursors

A cursor is an offset in a text that can be read byte by byte around it. Reading behind the text
gives zero, as reading a zero does, so only `atEnd` tells the two apart. A cursor never leaves the
text. Moving by bytes is for ASCII: it may end inside a character, where no text can be read.
-/

namespace Highlight

/-- A place in a text. -/
structure Cursor where
  text : List Char
  /-- Byte offset of the place. -/
  offset : Nat
  deriving DecidableEq, Repr

namespace Cursor

/-- The offset behind the text. -/
def stop (cursor : Cursor) : Nat := byteSize cursor.text

/-- Whether nothing is left to read. -/
def atEnd (cursor : Cursor) : Bool := cursor.stop ≤ cursor.offset

/-- What is left to read; nothing is from inside a character. -/
def rest (cursor : Cursor) : List Char :=
  let rest := dropBytes cursor.offset cursor.text
  if cursor.offset + byteSize rest = cursor.stop then rest else []

/-- The byte some way ahead. -/
def peek (cursor : Cursor) (ahead : Nat) : UInt8 :=
  ((utf8 cursor.text)[cursor.offset + ahead]?).getD 0

/-- The byte at the cursor. -/
def current (cursor : Cursor) : UInt8 := cursor.peek 0

/-- The character at the cursor. -/
def currentChar? (cursor : Cursor) : Option Char := cursor.rest.head?

/-- The cursor at an offset, or at the end if that is behind it. -/
def moveTo (cursor : Cursor) (offset : Nat) : Cursor :=
  { cursor with offset := min offset cursor.stop }

/-- The cursor some bytes further. -/
def advance (cursor : Cursor) (bytes : Nat) : Cursor :=
  cursor.moveTo (cursor.offset + bytes)

/-- The cursor behind the character at it. -/
def advanceCharacter (cursor : Cursor) : Cursor :=
  { cursor with offset := nextBoundary cursor.text cursor.offset }

/-- The cursor behind a byte, if that is what it is at. -/
def eat (cursor : Cursor) (byte : UInt8) : Bool × Cursor :=
  if ¬ cursor.atEnd ∧ cursor.current = byte then (true, cursor.advance 1) else (false, cursor)

/-- The cursor behind the characters of a class. -/
def skipWhile (cursor : Cursor) (set : AsciiSet) : Cursor :=
  { cursor with offset := Offset.skipWhile set cursor.text cursor.offset }

/-- The cursor at the next character of a class. -/
def skipUntil (cursor : Cursor) (set : AsciiSet) : Cursor :=
  { cursor with offset := Offset.skipUntil set cursor.text cursor.offset }

/-- The cursor at the next newline. -/
def skipLine (cursor : Cursor) : Cursor :=
  { cursor with offset := Offset.line cursor.text cursor.offset }

/-- Whether a text is what comes next. -/
def startsWith (cursor : Cursor) (marker : List Char) : Bool :=
  marker.isPrefixOf cursor.rest

/-- Whether a text is what comes next, where ASCII letters match either case. -/
def startsWithIgnoringCase (cursor : Cursor) (marker : List Char) : Bool :=
  startsIgnoringCase marker cursor.rest

/-- The text between two offsets. -/
def slice (cursor : Cursor) (start stop : Nat) : List Char :=
  dropBytes start (takeBytes stop cursor.text)

/-- The text from an offset up to the cursor. -/
def since (cursor : Cursor) (start : Nat) : List Char :=
  cursor.slice start cursor.offset

end Cursor

end Highlight
