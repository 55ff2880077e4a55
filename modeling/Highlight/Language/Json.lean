import Highlight.Lexer
import Highlight.Number
import Highlight.Quoted

/-!
# JSON

The one rule that looks further than its token is that for strings: a string with a colon behind it,
blanks aside, names a member of an object.
-/

namespace Highlight.Json

/-- What may stand between tokens. -/
def blanks : AsciiSet := .chars " \t\n\r"

/-- The structural characters. -/
def structural : AsciiSet := .chars "\x7b\x7d[]:,"

/-- Whether the next token is a colon. -/
def beforeColon (s : List Char) : Bool :=
  (s.dropWhile blanks.has).head? = some ':'

/-- A string. It ends with its line at the latest. -/
def scanString : Rule
  | [] => none
  | c :: s =>
    if c = '\x22' then
      let rest := Quoted.rest '\x22' true false s
      some ⟨if beforeColon rest then .nameTag else .string, rest⟩
    else none

/-- Digits without gaps. -/
def plain : NumberSyntax := { underscores := false }

/-- The fraction behind the digits of a number: a point with a digit behind it. -/
def fraction : List Char → Match
  | '.' :: s =>
    if NumberSyntax.atDigit s then ⟨.numberFloat, plain.behindDigits .digits s⟩
    else ⟨.numberInteger, '.' :: s⟩
  | s => ⟨.numberInteger, s⟩

/-- A text without the minus sign at its front. -/
def behindMinus : List Char → List Char
  | [] => []
  | c :: s => if c = '-' then s else c :: s

/-- A number: an optional minus sign, digits, an optional fraction, an optional exponent. -/
def scanNumber : Rule := fun s =>
  if NumberSyntax.atDigit (behindMinus s) then
    some (plain.withExponent (fraction (plain.behindDigits .digits (behindMinus s))))
  else none

/-- The three words. -/
def constants : List String := ["true", "false", "null"]

/-- A word. What follows it does not matter. -/
def scanConstant : Rule := fun s =>
  (constants.findSome? fun word => word.toList.isPrefixOf? s).map fun rest =>
    ⟨.keywordConstant, rest⟩

theorem consumes_scanString : Rule.Consumes scanString := by
  intro c s r hr
  simp only [scanString] at hr
  split at hr
  · cases hr
    exact Quoted.rest_suffix ..
  · cases hr

theorem fraction_suffix (s : List Char) : (fraction s).rest <:+ s := by
  unfold fraction
  split
  · split
    · exact (NumberSyntax.behindDigits_suffix ..).trans (List.suffix_cons ..)
    · exact List.suffix_rfl
  · exact List.suffix_rfl

theorem consumes_scanNumber : Rule.Consumes scanNumber := by
  intro c s r hr
  simp only [scanNumber] at hr
  split at hr
  · next hd =>
      cases hr
      refine (NumberSyntax.withExponent_suffix ..).trans ((fraction_suffix _).trans ?_)
      simp only [behindMinus] at hd ⊢
      split
      · exact NumberSyntax.behindDigits_suffix ..
      · next hc =>
          rw [if_neg hc] at hd
          simp only [NumberSyntax.atDigit] at hd
          rw [NumberSyntax.behindDigits,
            List.dropWhile_cons_of_pos (by simp [NumberSyntax.isDigitOrGap, hd])]
          exact List.dropWhile_suffix _
  · cases hr

theorem consumes_scanConstant : Rule.Consumes scanConstant := by
  intro c s r hr
  obtain ⟨rest, hrest, rfl⟩ := Option.map_eq_some_iff.1 hr
  obtain ⟨word, hmem, hword⟩ := List.exists_of_findSome?_eq_some hrest
  have hne : ∀ word ∈ constants, word.toList ≠ [] := by decide
  exact suffix_tail_of_isPrefixOf? (hne word hmem) hword

/-- The rules of the language. -/
def rules : List Rule :=
  [Rule.run .whitespace blanks, scanString, scanNumber, scanConstant, Rule.punctuation structural]

theorem consumes_rules : ∀ rule ∈ rules, Rule.Consumes rule := by
  simp only [rules, List.forall_mem_cons, List.not_mem_nil, false_imp_iff, implies_true, and_true]
  exact ⟨Rule.consumes_run _ _, consumes_scanString, consumes_scanNumber, consumes_scanConstant,
    Rule.consumes_single _ _⟩

/-- The lexer of the language. -/
def lexer : Lexer Unit := .ofRules rules consumes_rules

/-- A string in place. The colon is looked for behind it. -/
def readString : Reader := fun buffer start =>
  if buffer.reads start '\x22' then
    let stop := buffer.quoted '\x22' true false (start + 1)
    some ⟨if buffer.reads (buffer.skipWhile blanks stop) ':' then .nameTag else .string, stop⟩
  else none

/-- The fraction of a number in place, from behind its digits. -/
def readFraction (buffer : Buffer) (offset : Nat) : Span :=
  if buffer.reads offset '.' && buffer.readsAny (offset + 1) .digits then
    ⟨.numberFloat, plain.digitsStop .digits buffer (offset + 1)⟩
  else ⟨.numberInteger, offset⟩

/-- A number in place. -/
def readNumber : Reader := fun buffer start =>
  let digits := if buffer.reads start '-' then start + 1 else start
  if buffer.readsAny digits .digits then
    some (plain.readExponent buffer
      (readFraction buffer (plain.digitsStop .digits buffer digits)))
  else none

/-- A word in place. -/
def readConstant : Reader := fun buffer start =>
  constants.findSome? fun word =>
    if buffer.startsWith start word.toList then
      some ⟨.keywordConstant, start + byteSize word.toList⟩
    else none

/-- The readers of the language. -/
def readers : List Reader :=
  [Reader.run .whitespace blanks, readString, readNumber, readConstant,
   Reader.punctuation structural]

/-- The scanner of the language. -/
def scanner : Scanner Unit := .ofReaders readers

end Highlight.Json
