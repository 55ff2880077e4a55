import Highlight.Language.Go
import Highlight.Proofs.CodeTokens
import Highlight.Proofs.Printing

/-!
# The tokens of Go

To see that a token is taken, the rules of the language are tried in their order: every rule in
front of the one that the token is of declines, and that one takes the token and nothing else. The
only rule that Go has for itself is the one for characters in single quotes, and it declines for the
first character alone.
-/

namespace Highlight.Go

variable {c : Char} {body : List Char} {t : Lexeme}

/-- The tokens, with their kinds. -/
inductive Token : Lexeme → Prop where
  | word {w : List Char} (hw : Identifier w) : Token ⟨vocabulary.kind w, w⟩
  | number {kind : Kind} {w : List Char} (hw : numbers.Literal kind w) : Token ⟨kind, w⟩
  | string {kind : Kind} {affix w : List Char} (hw : strings.Literal affix kind w) :
      Token ⟨kind, w⟩
  | rune {body : List Char} (hbody : CharacterBody body) :
      Token ⟨.stringChar, '\x27' :: (body ++ ['\x27'])⟩
  | operator {w : List Char} (hw : w ∈ operators.spellings) : Token ⟨.operator, w⟩
  | punctuation {c : Char} (hc : punctuation.has c = true) : Token ⟨.punctuation, [c]⟩

/-- What Go's tokens are made of. -/
def parts : CodeSyntax where
  comments := comments
  strings := strings
  numbers := numbers
  operators := operators
  punctuation := punctuation

theorem clear_parts : parts.Clear where
  numbers := by constructor <;> decide
  operators := by constructor <;> decide
  letters := by decide
  openings := by decide
  markers := by decide
  words := .ident
  signs := CodeSyntax.forall_mem_signs (by decide) (AsciiSet.forall_of_spelt rfl (by decide))
  signStarts := CodeSyntax.forall_mem_signs (by decide) (AsciiSet.forall_of_spelt rfl (by decide))
  punctuation := AsciiSet.forall_of_spelt rfl (by decide)

/-- The parts with the proof that they can be told apart. -/
def code : CodeSyntax.Distinct := ⟨parts, clear_parts⟩

theorem scanRune_of_ne (hc : c ≠ '\x27') (s : List Char) : scanRune (c :: s) = none :=
  if_neg hc

theorem recognises_rune (hbody : CharacterBody body) :
    Rule.Recognises ⟨.stringChar, '\x27' :: (body ++ ['\x27'])⟩ scanRune := by
  intro rest _
  show scanRune ('\x27' :: (body ++ ['\x27'] ++ rest)) = some ⟨.stringChar, rest⟩
  rw [List.append_assoc, List.singleton_append, scanRune, if_pos rfl, scanCharacter_append hbody]

theorem recognises_sign (h : code.Sign t) : Rule.Recognises t (Rule.firstOf rules) := by
  have hquote : ∀ w ∈ code.signs, ∀ c ∈ w.head?, c ≠ '\x27' :=
    CodeSyntax.forall_mem_signs (by decide) (AsciiSet.forall_of_spelt rfl (by decide))
  have hplain := code.clear.sign_plain h
  have hrune : Rule.Declines t.text scanRune :=
    Rule.declines_of_head (code.clear.sign_head hquote h) fun _ hc => scanRune_of_ne hc
  exact .behind hplain.whitespace <| .behind hplain.comments <| .behind hplain.strings <|
    .behind hrune <| .behind (code.clear.numbers_decline_sign h) <|
    .behind (code.clear.words_decline_sign vocabulary.readsWords_scan h) <|
    code.clear.recognises_sign h

theorem Token.recognises (h : Token t) : Rule.Recognises t (Rule.firstOf rules) := by
  cases h with
  | @word w hw =>
      have hplain := code.clear.word_plain hw
      have hrune : Rule.Declines w scanRune :=
        Rule.declines_of_head hw.head fun c hc => scanRune_of_ne (ne_of_class hc (by decide))
      exact .behind hplain.whitespace <| .behind hplain.comments <| .behind hplain.strings <|
        .behind hrune <| .behind (code.clear.numbers_decline_word hw) <|
        .first (vocabulary.readsWords_scan.recognises hw)
  | @number kind w hw =>
      have hplain := code.clear.number_plain hw
      have hrune : Rule.Declines w scanRune :=
        Rule.declines_of_head hw.head fun c hc => scanRune_of_ne (ne_of_class hc (by decide))
      exact .behind hplain.whitespace <| .behind hplain.comments <| .behind hplain.strings <|
        .behind hrune <| .first (code.clear.recognises_number hw)
  | string hw =>
      exact .behind (Rule.whitespace_declines (code.clear.string_visible hw)) <|
        .behind (code.clear.comments_decline_string hw) <| .first (code.clear.recognises_string hw)
  | rune hbody =>
      exact .behind (fun _ _ => Rule.whitespace_of_notMem (by decide)) <|
        .behind (fun _ _ => code.clear.comments_scan_cons_eq_none (by decide) _) <|
        .behind (fun _ _ => StringSyntax.scan_cons_eq_none (by decide)) <|
        .first (recognises_rune hbody)
  | operator hw => exact recognises_sign (.operator hw)
  | punctuation hc => exact recognises_sign (.punctuation hc)

theorem Token.visible (h : Token t) : Visible t.text := by
  cases h with
  | word hw => exact hw.visible
  | number hw => exact hw.visible
  | string hw => exact code.clear.string_visible hw
  | rune => exact ⟨_, _, rfl, by decide⟩
  | operator hw => exact (code.clear.sign_plain (.operator hw)).visible
  | punctuation hc => exact (code.clear.sign_plain (.punctuation hc)).visible

theorem lex_tokens {tokens : List Lexeme} (h : ∀ t ∈ tokens, Token t) :
    lexer.lex (printed tokens) = tokens.intersperse blank :=
  Lexer.lex_printed_ofRules consumes_rules (fun _ ht => ht.recognises) (fun _ ht => ht.visible) h

end Highlight.Go
