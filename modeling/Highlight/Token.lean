import Highlight.Lexer
import Highlight.Locator
import Highlight.Reader

/-!
# Tokens

A token is a lexeme with the position where it starts. On the way from lexemes to tokens, white
space can be stripped: what is in front of a line break on its line is dropped, and so is what ends
the text. A stretch of white space then becomes several tokens, one for each line break, and one for
the indentation behind the last of them.

Stripping cuts white space into pieces and marks those that stay. The pieces still tile the text, so
each has an offset, and a locator finds the positions of those that stay by their offsets.

In place there are only offsets: a scanner tells kinds and sizes, and what becomes of them is cut
out of the buffer. Whether a line break has a return in front of it is then a look backwards, and
whether white space ends its line one at what is behind it.
-/

namespace Highlight

/-- A lexeme and where it starts. -/
structure Token where
  kind : Kind
  value : List Char
  position : Position
  deriving DecidableEq, Repr

/-- How tokens are made from lexemes. -/
structure TokenConfig where
  /-- Drop white space at the end of lines and of the text. -/
  strip : Bool := false
  /-- Distance of tab stops. -/
  tabSize : Nat := 4
  deriving DecidableEq, Repr

/-- A lexeme or a part of one. -/
structure Piece where
  lexeme : Lexeme
  /-- Whether it becomes a token. -/
  kept : Bool
  deriving DecidableEq, Repr

namespace Piece

/-- Whether a line ends at the front of a text. -/
def atLineEnd (s : List Char) : Bool :=
  s.isEmpty || ['\n'].isPrefixOf s || ['\r', '\n'].isPrefixOf s

/-- A line break, and the rest of its line in front of it, which is dropped. The break takes a
carriage return right in front of the newline with it. -/
def ofLine (line : List Char) : List Piece :=
  if line.getLast? = some '\r' then
    [⟨⟨.whitespace, line.dropLast⟩, false⟩, ⟨⟨.whitespace, ['\r', '\n']⟩, true⟩]
  else [⟨⟨.whitespace, line⟩, false⟩, ⟨⟨.whitespace, ['\n']⟩, true⟩]

/-- The pieces of a stretch of white space with a given text behind it. What follows its last line
break is dropped if the line ends behind it. -/
def ofSpace (after space : List Char) : List Piece :=
  match _h : space.dropWhile (· != '\n') with
  | [] => [⟨⟨.whitespace, space⟩, !(space.isEmpty || atLineEnd after)⟩]
  | _ :: more => ofLine (space.takeWhile (· != '\n')) ++ ofSpace after more
termination_by space.length
decreasing_by
  have := (List.dropWhile_suffix (l := space) (· != '\n')).length_le
  rw [_h] at this
  simp only [List.length_cons] at this
  omega

/-- The pieces of the lexemes of a text. The text shows what is behind white space. -/
def ofLexemes (strip : Bool) : (text : List Char) → List Lexeme → List Piece
  | _, [] => []
  | text, lexeme :: more =>
    let after := text.drop lexeme.text.length
    let pieces :=
      if strip ∧ lexeme.kind = .whitespace then ofSpace after lexeme.text else [⟨lexeme, true⟩]
    pieces ++ ofLexemes strip after more

end Piece

namespace Token

/-- The tokens among the pieces that begin at an offset. The locator is asked where a piece that
stays starts, and is told about it; of one that is dropped it hears nothing. -/
def locate (locator : Locator) (offset : Nat) : List Piece → List Token
  | [] => []
  | piece :: more =>
    let stop := offset + piece.lexeme.size
    if piece.kept then
      let (position, locator) := locator.position offset
      ⟨piece.lexeme.kind, piece.lexeme.text, position⟩ ::
        locate (locator.pass offset stop) stop more
    else locate locator stop more

/-- The tokens of the lexemes that a text has from an offset on, where line one and column one
are. -/
def ofLexemesFrom (config : TokenConfig) (text : List Char) (start : Nat)
    (lexemes : List Lexeme) : List Token :=
  locate (.start text start config.tabSize) start
    (Piece.ofLexemes config.strip (dropBytes start text) lexemes)

/-- The tokens of the lexemes of a text. -/
def ofLexemes (config : TokenConfig) (text : List Char) (lexemes : List Lexeme) : List Token :=
  ofLexemesFrom config text 0 lexemes

end Token

namespace Buffer

/-- The lexemes that are given by their kinds and sizes from an offset on. A lexeme ends with the
buffer at the latest, and one that takes nothing is left out. -/
def lexemes (buffer : Buffer) : (start : Nat) → List (Kind × Nat) → List Lexeme
  | _, [] => []
  | start, (kind, size) :: more =>
    let stop := min (start + size) buffer.length
    if start < stop then ⟨kind, buffer.slice start stop⟩ :: buffer.lexemes stop more
    else buffer.lexemes stop more

/-- Whether a line ends at an offset. -/
def atLineEnd (buffer : Buffer) (offset : Nat) : Bool :=
  buffer.length ≤ offset || buffer.reads offset '\n' || buffer.startsWith offset ['\r', '\n']

end Buffer

/-- A part of a buffer that becomes a token. -/
structure Stretch where
  kind : Kind
  start : Nat
  stop : Nat
  deriving DecidableEq, Repr

namespace Stretch

/-- What stays of the white space between two offsets: each line break, with a return in front of
its newline, and the indentation behind the last one if there is something on the line. -/
def ofSpace (buffer : Buffer) (start stop : Nat) : List Stretch :=
  match _hfind : buffer.find? (· == 0x0A) start stop with
  | none => if buffer.atLineEnd stop then [] else [⟨.whitespace, start, stop⟩]
  | some newline =>
    let front :=
      if start < newline ∧ buffer.reads (newline - 1) '\r' then newline - 1 else newline
    ⟨.whitespace, front, newline + 1⟩ ::
      if newline + 1 < stop then ofSpace buffer (newline + 1) stop else []
termination_by stop - start
decreasing_by
  have := Buffer.find?_bounds _hfind
  omega

/-- What becomes a token of the lexemes that are given by their kinds and sizes. -/
def ofScan (strip : Bool) (buffer : Buffer) : (start : Nat) → List (Kind × Nat) → List Stretch
  | _, [] => []
  | start, (kind, size) :: more =>
    let stop := min (start + size) buffer.length
    let stretches :=
      if stop = start then []
      else if strip ∧ kind = .whitespace then ofSpace buffer start stop
      else [⟨kind, start, stop⟩]
    stretches ++ ofScan strip buffer stop more

end Stretch

namespace Token

/-- The tokens of the stretches of a buffer, with the positions that a locator finds. -/
def cut (buffer : Buffer) (locator : Locator) : List Stretch → List Token
  | [] => []
  | ⟨kind, start, stop⟩ :: more =>
    let (position, locator) := locator.position start
    ⟨kind, buffer.slice start stop, position⟩ :: cut buffer (locator.pass start stop) more

/-- The tokens of what a scanner finds from an offset on, where line one and column one are. -/
def ofScan (config : TokenConfig) (buffer : Buffer) (start : Nat) (found : List (Kind × Nat)) :
    List Token :=
  cut buffer (.start buffer.text start config.tabSize)
    (Stretch.ofScan config.strip buffer start found)

end Token

end Highlight
