import Mathlib
import Highlight.Highlighter
import Highlight.Proofs.RangeScans

/-!
# Lexemes tile the text

A lexer may look as far ahead as it likes, keep frames, and hand a stretch of the text to another
lexer, yet a step always takes the first character and leaves an ending of what is behind it. The
whole argument rests on that one field of `Lexer`: what a run takes apart can be put together again,
no piece of it is empty, and so there are no more pieces than bytes. Nothing here looks at a single
language.

Around a run there is only the cutting of the range in front and the making of tokens behind. The
first is what `Boundary` is about. The second neither adds nor drops a lexeme as long as white space
is not stripped, whatever the locator answers.
-/

namespace Highlight

namespace Lexeme

end Lexeme

namespace Piece

theorem ofLexemes_false (text : List Char) (lexemes : List Lexeme) :
    ofLexemes false text lexemes = lexemes.map fun lexeme => ⟨lexeme, true⟩ := by
  induction lexemes generalizing text with
  | nil => rfl
  | cons lexeme more ih =>
      rw [ofLexemes, ih]
      rfl

end Piece

namespace Token

/-- A token without its position. -/
def lexeme (token : Token) : Lexeme := ⟨token.kind, token.value⟩

/-- A locator has a say in positions only. -/
theorem map_lexeme_locate (locator : Locator) (offset : Nat) (pieces : List Piece) :
    (locate locator offset pieces).map lexeme =
      (pieces.filter Piece.kept).map Piece.lexeme := by
  induction pieces generalizing locator offset with
  | nil => rfl
  | cons piece more ih =>
      rw [locate]
      by_cases hk : piece.kept = true
      · rw [if_pos hk, List.filter_cons_of_pos hk, List.map_cons, List.map_cons, ih]
        rfl
      · rw [if_neg hk, List.filter_cons_of_neg hk, ih]

theorem map_lexeme_ofLexemesFrom {config : TokenConfig} (h : config.strip = false)
    (text : List Char) (start : Nat) (lexemes : List Lexeme) :
    (ofLexemesFrom config text start lexemes).map lexeme = lexemes := by
  have hall : (lexemes.map fun lexeme => (⟨lexeme, true⟩ : Piece)).filter Piece.kept =
      lexemes.map fun lexeme => ⟨lexeme, true⟩ :=
    List.filter_eq_self.2 fun piece hp => by
      obtain ⟨lexeme, -, rfl⟩ := List.mem_map.1 hp
      rfl
  rw [ofLexemesFrom, map_lexeme_locate, h, Piece.ofLexemes_false, hall, List.map_map]
  exact List.map_id lexemes

end Token

/-- Without stripping, tokens are the lexemes of the range and their positions. -/
theorem Language.map_lexeme_tokenizeRange {config : TokenConfig} (h : config.strip = false)
    (language : Language) (text : List Char) (range : ByteRange) :
    (language.tokenizeRange text range config).map Token.lexeme = language.lexRange text range :=
  tokenizeRange_eq_ofLexemes .. ▸ Token.map_lexeme_ofLexemesFrom h ..

end Highlight
