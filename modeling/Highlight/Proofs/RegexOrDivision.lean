import Highlight.Language
import Highlight.Proofs.JavaScriptTokens

/-!
# White space and comments do not decide what a slash is

Between two tokens there may be white space and comments, in any number and order, as long as white
space comes first and last. None of it changes whether an operand is expected, so a slash means what
the tokens in front of it make of it. A comment begins with a slash as well, but it is looked for
first, and no regular expression goes on like one.

`Tokens` says which lists of tokens there are, and knows of no trivia. `Spaced` puts separators
between them, and knows of no regular expressions. A text written so is read as it was written,
token by token and separator by separator.
-/

namespace Highlight.JavaScript

variable {space body s rest : List Char} {expected spaced : Bool} {t : Lexeme}
  {tokens lexemes sep : List Lexeme}

/-- The rest of a separator, given whether there is white space in front of it. -/
inductive Filler : (spaced : Bool) → List Lexeme → Prop where
  | nil : Filler true []
  | space {space : List Char} {sep : List Lexeme} (hne : space ≠ [])
      (hspace : ∀ c ∈ space, AsciiSet.whitespace.has c = true) (more : Filler true sep) :
      Filler false (⟨.whitespace, space⟩ :: sep)
  | comment {spaced : Bool} {body : List Char} {sep : List Lexeme}
      (hbody : ¬ ['*', '/'] <:+: body) (more : Filler false sep) :
      Filler spaced (⟨.commentMultiline, '/' :: '*' :: (body ++ ['*', '/'])⟩ :: sep)

/-- White space and comments with white space at either end. -/
inductive Separator : List Lexeme → Prop where
  | mk {space : List Char} {sep : List Lexeme} (hne : space ≠ [])
      (hspace : ∀ c ∈ space, AsciiSet.whitespace.has c = true) (more : Filler true sep) :
      Separator (⟨.whitespace, space⟩ :: sep)

theorem Separator.filler (h : Separator sep) : Filler false sep := by
  cases h with
  | mk hne hspace more => exact .space hne hspace more

theorem Separator.gap (h : Separator sep) (rest : List Char) :
    Gap (sep.flatMap Lexeme.text ++ rest) := by
  cases h with
  | mk hne hspace more =>
      obtain ⟨c, s, rfl⟩ := List.exists_cons_of_ne_nil hne
      exact gap_cons (hspace c List.mem_cons_self) _

/-- A marker of two characters does not begin in a text without it and end behind that. -/
theorem behind_append {a b : Char} (hab : a ≠ b) (h : ¬ [a, b] <:+: body) (rest : List Char) :
    behind [a, b] (body ++ a :: b :: rest) = rest := by
  induction body with
  | nil =>
      have hmarker : [a, b].isPrefixOf? (a :: b :: rest) = some rest :=
        isPrefixOf?_append [a, b] rest
      rw [List.nil_append, behind, hmarker]
  | cons c body ih =>
      have hmore := ih fun hin => h (hin.trans (List.suffix_cons c body).isInfix)
      have hnone : [a, b].isPrefixOf? (c :: (body ++ a :: b :: rest)) = none := by
        refine isPrefixOf?_eq_none fun hprefix => ?_
        obtain ⟨rfl, hb⟩ := List.cons_prefix_cons.1 hprefix
        -- The marker begins in the body. It ends there too, unless its first character is the last
        -- one of the body, and then its second would have to be its first.
        cases body with
        | nil => exact hab (List.cons_prefix_cons.1 hb).1.symm
        | cons d body =>
            obtain ⟨rfl, -⟩ := List.cons_prefix_cons.1 hb
            exact h ⟨[], body, rfl⟩
      rw [List.cons_append, behind, hnone]
      exact hmore

theorem takes_space (hne : space ≠ []) (hspace : ∀ c ∈ space, AsciiSet.whitespace.has c = true)
    (hrest : Stops AsciiSet.whitespace.has rest) :
    lexer.Takes (Between expected) ⟨.whitespace, space⟩ rest (Between expected) := by
  have hscan : Rule.whitespace (space ++ rest) = some ⟨.whitespace, rest⟩ :=
    Rule.run_append hne hspace hrest
  exact takes_of_leading (t := ⟨.whitespace, space⟩) hne fun state _ =>
    Rule.firstOf_cons_of_some hscan

theorem takes_comment (hbody : ¬ ['*', '/'] <:+: body) (rest : List Char) :
    lexer.Takes (Between expected) ⟨.commentMultiline, '/' :: '*' :: (body ++ ['*', '/'])⟩ rest
      (Between expected) := by
  have hmarkers : "/*".toList = ['/', '*'] ∧ "*/".toList = ['*', '/'] := by decide
  have hassoc : '/' :: '*' :: (body ++ ['*', '/']) ++ rest =
      ['/', '*'] ++ (body ++ '*' :: '/' :: rest) := by
    rw [List.cons_append, List.cons_append, List.append_assoc]
    rfl
  have hblock : comments.scanBlock (['/', '*'] ++ (body ++ '*' :: '/' :: rest)) =
      some ⟨.commentMultiline, rest⟩ := by
    simp only [CommentSyntax.scanBlock, comments, CommentSyntax.slashes, hmarkers.1, hmarkers.2,
      isPrefixOf?_append, CommentSyntax.blockRest, Bool.false_eq_true, if_false,
      behind_append (by decide : '*' ≠ '/') hbody rest]
  have hcomment := @Rule.firstOf_cons_of_some comments.scanBlock [comments.scanLine] _ _ hblock
  refine takes_of_leading (t := ⟨.commentMultiline, _⟩) (List.cons_ne_nil _ _) fun state _ => ?_
  show Rule.firstOf (leading state) ('/' :: '*' :: (body ++ ['*', '/']) ++ rest) = _
  rw [hassoc, List.cons_append, leading,
    Rule.firstOf_cons_of_none (Rule.whitespace_of_notMem (by decide)),
    Rule.firstOf_cons_of_none (scanHashbang_of_ne (by decide) _ _)]
  exact Rule.firstOf_cons_of_some hcomment

theorem Filler.stops (h : Filler true sep) (hrest : Stops AsciiSet.whitespace.has rest) :
    Stops AsciiSet.whitespace.has (sep.flatMap Lexeme.text ++ rest) := by
  cases h with
  | nil => exact hrest
  | comment => exact .cons (by decide) _

/-- What is read as it was written, with the flag left alone. -/
def ReadsAs (expected : Bool) (lexemes : List Lexeme) (rest : List Char) : Prop :=
  ∀ state, Between expected state → ∃ state', Between expected state' ∧
    lexer.run state (lexemes.flatMap Lexeme.text ++ rest) = lexemes ++ lexer.run state' rest

theorem ReadsAs.cons (hmore : ReadsAs expected sep rest)
    (h : lexer.Takes (Between expected) t (sep.flatMap Lexeme.text ++ rest) (Between expected)) :
    ReadsAs expected (t :: sep) rest := by
  intro state hstate
  obtain ⟨state₁, hstate₁, hrun₁⟩ := h state hstate
  obtain ⟨state₂, hstate₂, hrun₂⟩ := hmore state₁ hstate₁
  refine ⟨state₂, hstate₂, ?_⟩
  rw [List.flatMap_cons, List.append_assoc, hrun₁, hrun₂]
  rfl

theorem Filler.readsAs (h : Filler spaced sep) (hrest : Stops AsciiSet.whitespace.has rest) :
    ReadsAs expected sep rest := by
  induction h with
  | nil => exact fun state hstate => ⟨state, hstate, rfl⟩
  | space hne hspace more ih => exact ih.cons (takes_space hne hspace (more.stops hrest))
  | comment hbody more ih => exact ih.cons (takes_comment hbody _)

/-- The lists of tokens, given whether an operand is expected in front of the first. -/
inductive Tokens : (expected : Bool) → List Lexeme → Prop where
  | nil {expected : Bool} : Tokens expected []
  | cons {expected : Bool} {t : Lexeme} {tokens : List Lexeme} (ht : Token expected t)
      (more : Tokens (operandAfter t.kind t.text expected) tokens) : Tokens expected (t :: tokens)

/-- A list of tokens, and the same with a separator between any two neighbours. -/
inductive Spaced : (tokens lexemes : List Lexeme) → Prop where
  | nil : Spaced [] []
  | single {t : Lexeme} : Spaced [t] [t]
  | cons {t t' : Lexeme} {tokens sep lexemes : List Lexeme} (hsep : Separator sep)
      (more : Spaced (t' :: tokens) lexemes) : Spaced (t :: t' :: tokens) (t :: (sep ++ lexemes))

theorem Spaced.stops (h : Spaced tokens lexemes) (htokens : Tokens expected tokens) :
    Stops AsciiSet.whitespace.has (lexemes.flatMap Lexeme.text) := by
  cases h with
  | nil => exact .nil _
  | single =>
      cases htokens with
      | cons ht => exact ht.visible.stops_append _
  | cons =>
      cases htokens with
      | cons ht => exact ht.visible.stops_append _

theorem Spaced.run (h : Spaced tokens lexemes) (htokens : Tokens expected tokens) {state : State}
    (hstate : Between expected state) :
    lexer.run state (lexemes.flatMap Lexeme.text) = lexemes := by
  induction h generalizing expected state with
  | nil => exact Lexer.run_nil lexer state
  | @single t =>
      cases htokens with
      | cons ht =>
          obtain ⟨state', -, hrun⟩ := ht.takes gap_nil state hstate
          rw [List.flatMap_cons, List.flatMap_nil, hrun, Lexer.run_nil]
  | @cons t t' tokens sep lexemes hsep more ih =>
      cases htokens with
      | cons ht htokens =>
          obtain ⟨state₁, hstate₁, hrun₁⟩ := ht.takes (hsep.gap _) state hstate
          obtain ⟨state₂, hstate₂, hrun₂⟩ := hsep.filler.readsAs (more.stops htokens) state₁ hstate₁
          rw [List.flatMap_cons, List.flatMap_append, hrun₁, hrun₂, ih htokens hstate₂]

/-- Tokens are read as they were written, whatever stands between them. -/
theorem lex_spaced (htokens : Tokens true tokens) (h : Spaced tokens lexemes) :
    Language.javaScript.lex (lexemes.flatMap Lexeme.text) = lexemes :=
  h.run htokens ⟨rfl, rfl⟩

/-- A slash behind a sign of equality opens a regular expression, one behind a regular expression,
behind a comment behind that or behind an increment divides. -/
theorem lex_spaced_slashes :
    Language.javaScript.lex "x = /[/]\\/*/g /* / */ / y ++ / 2".toList =
      [⟨.name, "x".toList⟩, ⟨.whitespace, " ".toList⟩, ⟨.operator, "=".toList⟩,
        ⟨.whitespace, " ".toList⟩, ⟨.stringRegex, "/[/]\\/*/g".toList⟩, ⟨.whitespace, " ".toList⟩,
        ⟨.commentMultiline, "/* / */".toList⟩, ⟨.whitespace, " ".toList⟩, ⟨.operator, "/".toList⟩,
        ⟨.whitespace, " ".toList⟩, ⟨.name, "y".toList⟩, ⟨.whitespace, " ".toList⟩,
        ⟨.operator, "++".toList⟩, ⟨.whitespace, " ".toList⟩, ⟨.operator, "/".toList⟩,
        ⟨.whitespace, " ".toList⟩, ⟨.numberInteger, "2".toList⟩] := by
  have hblank : Separator [⟨.whitespace, [' ']⟩] := .mk (by decide) (by decide) .nil
  have hcomment : Separator [⟨.whitespace, [' ']⟩, ⟨.commentMultiline, "/* / */".toList⟩,
      ⟨.whitespace, [' ']⟩] :=
    .mk (by decide) (by decide) (@Filler.comment true [' ', '/', ' '] _ (by decide)
      (.space (by decide) (by decide) .nil))
  have hx : Token true ⟨.name, ['x']⟩ := @Token.word true ['x'] (.run (by decide) (by decide))
  have hy : Token true ⟨.name, ['y']⟩ := @Token.word true ['y'] (.run (by decide) (by decide))
  have htwo : Token true ⟨.numberInteger, ['2']⟩ :=
    .number (@NumberSyntax.Literal.decimal numbers .numberInteger ['2'] [] [] []
      (.run (by decide) (by decide)) .none .none .none)
  have hregex : Token true ⟨.stringRegex, "/[/]\\/*/g".toList⟩ :=
    @Token.regex ['[', '/', ']', '\x5c', '/', '*'] ['g']
      (.openClass (.member (by decide) (.closeClass (.escape (by decide)
        (.plain (by decide) .nil))))) (by decide) (by decide) (by decide)
  have htokens : Tokens true [⟨.name, ['x']⟩, ⟨.operator, ['=']⟩,
      ⟨.stringRegex, "/[/]\\/*/g".toList⟩, ⟨.operator, ['/']⟩, ⟨.name, ['y']⟩,
      ⟨.operator, ['+', '+']⟩, ⟨.operator, ['/']⟩, ⟨.numberInteger, ['2']⟩] :=
    .cons hx (.cons (.operator (by decide) (by decide)) (.cons hregex
      (.cons (.operator (by decide) (by decide)) (.cons hy
        (.cons (.operator (by decide) (by decide)) (.cons (.operator (by decide) (by decide))
          (.cons htwo .nil)))))))
  exact lex_spaced htokens (.cons hblank (.cons hblank (.cons hcomment (.cons hblank (.cons hblank
    (.cons hblank (.cons hblank .single)))))))

end Highlight.JavaScript
