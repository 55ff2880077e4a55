import Highlight.Token

/-!
# Formatters

A formatter turns tokens into text. Where positions do not matter it is given the lexemes alone.
-/

namespace Highlight

/-- A way to write tokens and lexemes as text. -/
structure Formatter where
  /-- Short name. -/
  name : String
  /-- The text of tokens. -/
  formatTokens : List Token → List Char
  /-- The text of lexemes. -/
  formatLexemes : List Lexeme → List Char

namespace Formatter

/-- Writes what was read. -/
def plain : Formatter where
  name := "null"
  formatTokens tokens := tokens.flatMap Token.value
  formatLexemes lexemes := lexemes.flatMap Lexeme.text

end Formatter

end Highlight
