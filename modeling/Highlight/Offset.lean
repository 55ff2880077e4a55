import Highlight.Bytes
import Highlight.Comment
import Highlight.Operator
import Highlight.Quoted
import Highlight.Word

/-!
# Scanning by offset

The scans of this library take a text and leave a rest. Here they are applied to a text at a byte
offset, and the answer is the offset where the rest begins. An offset behind the text has no text to
scan: scans that skip then stay where they are, scans that look for an end answer the end of the
text, and rules decline.
-/

namespace Highlight.Offset

/-- The text from an offset on; none behind its end. -/
def from? (text : List Char) (offset : Nat) : Option (List Char) :=
  if offset ≤ byteSize text then some (dropBytes offset text) else none

/-- The offset of an ending of a text. -/
def ofRest (text rest : List Char) : Nat := byteSize text - byteSize rest

/-- The offset behind what a scan takes, where a scan from behind the text does not move. One from
inside a character does not move back to where the character begins. -/
def skip (scan : List Char → List Char) (text : List Char) (offset : Nat) : Nat :=
  match from? text offset with
  | some s => max offset (ofRest text (scan s))
  | none => offset

/-- The offset behind what a scan takes, where a scan from behind the text ends with it. -/
def seek (scan : List Char → List Char) (text : List Char) (offset : Nat) : Nat :=
  match from? text offset with
  | some s => ofRest text (scan s)
  | none => byteSize text

/-- The offset of the first character that is not of a class. -/
def skipWhile (set : AsciiSet) : List Char → Nat → Nat :=
  skip (·.dropWhile set.has)

/-- The offset of the first character of a class. -/
def skipUntil (set : AsciiSet) : List Char → Nat → Nat :=
  skip (·.dropWhile fun c => !set.has c)

/-- The offset of the next newline. -/
def line : List Char → Nat → Nat :=
  skip fromNewline

/-- The offset behind the next closing marker. -/
def block (closing : List Char) : List Char → Nat → Nat :=
  skip (behind closing)

/-- The offset behind the characters that go on a word. -/
def word (set : AsciiSet) : List Char → Nat → Nat :=
  skip (behindWord set)

/-- The offset behind a quoted text. -/
def quoted (quote : Char) (escapes multiline : Bool) : List Char → Nat → Nat :=
  seek (Quoted.rest quote escapes multiline)

/-- The offset behind a text in triple quotes. -/
def tripleQuoted (quote : Char) : List Char → Nat → Nat :=
  seek (Quoted.tripleRest quote)

/-- The offset behind a block comment that nests. -/
def nestedBlock (opening closing : List Char) : List Char → Nat → Nat :=
  seek (CommentSyntax.nestedRest opening closing)

/-- The offset behind an identifier. -/
def identifier? (text : List Char) (offset : Nat) : Option Nat := do
  let s ← from? text offset
  let rest ← behindIdentifier? s
  return ofRest text rest

/-- Whether a word starts at an offset. -/
def startsWordAt (start : AsciiSet) (text : List Char) (offset : Nat) : Bool :=
  (from? text offset).any (atWord start)

/-- What a rule recognises at an offset: the kind, and the offset behind it. -/
def recognise? (rule : Rule) (text : List Char) (offset : Nat) : Option (Kind × Nat) := do
  let s ← from? text offset
  let found ← rule s
  return (found.kind, ofRest text found.rest)

/-- The operator at an offset. The offset behind it is given by its length alone. -/
def operator? (syn : OperatorSyntax) (text : List Char) (offset : Nat) : Option (Kind × Nat) := do
  let s ← from? text offset
  let length ← syn.length? s
  return (.operator, offset + length)

/-- The character literal whose opening quote is at an offset. -/
def character (text : List Char) (offset : Nat) : Kind × Nat :=
  (.stringChar, quoted '\x27' true false text (offset + 1))

end Highlight.Offset
