import Highlight.Comment
import Highlight.Lexer
import Highlight.Number
import Highlight.Operator
import Highlight.StringLiteral
import Highlight.Vocabulary

/-!
# Go

Nothing depends on context. Backticks enclose raw strings, and single quotes a character.
-/

namespace Highlight.Go

/-- Comments. -/
def comments : CommentSyntax := .slashes

/-- Strings in double quotes and in backticks. -/
def strings : StringSyntax where
  single := false
  rawBacktick := true

/-- Numbers; an `i` makes one imaginary. -/
def numbers : NumberSyntax where
  imaginarySuffixes := ["i"]

/-- Operators. -/
def operators : OperatorSyntax where
  three := ["<<=", ">>=", "&^=", "..."]
  two := ["==", "!=", "<=", ">=", "&&", "||", "<-", "++", "--", "+=", "-=", "*=", "/=", "%=", "&=",
    "|=", "^=", "<<", ">>", "&^", ":="]
  one := "+-*/%&|^<>=!~"

/-- Punctuation. -/
def punctuation : AsciiSet := .chars "()[]\x7b\x7d;,.:"

/-- Words that are more than names. -/
def vocabulary : Vocabulary :=
  [(.keywordDeclaration, ["var", "const", "type", "func", "struct", "interface", "map", "chan"]),
   (.keywordNamespace, ["package", "import"]),
   (.keyword, ["break", "case", "continue", "default", "defer", "else", "fallthrough", "for", "go",
     "goto", "if", "range", "return", "select", "switch"]),
   (.keywordConstant, ["true", "false", "nil", "iota"]),
   (.keywordType, ["any", "bool", "byte", "complex64", "complex128", "error", "float32", "float64",
     "int", "int8", "int16", "int32", "int64", "rune", "string", "uint", "uint8", "uint16",
     "uint32", "uint64", "uintptr"]),
   (.nameBuiltin, ["append", "cap", "clear", "close", "complex", "copy", "delete", "imag", "len",
     "make", "max", "min", "new", "panic", "print", "println", "real", "recover"])]

/-- A character in single quotes. -/
def scanRune : Rule
  | [] => none
  | c :: s => if c = '\x27' then some (scanCharacter s) else none

theorem consumes_scanRune : Rule.Consumes scanRune := by
  intro c s r hr
  simp only [scanRune] at hr
  split at hr
  · cases hr
    exact scanCharacter_suffix s
  · cases hr

/-- The rules of the language. -/
def rules : List Rule :=
  [Rule.whitespace, comments.scan, strings.scan, scanRune, numbers.scan, vocabulary.scan,
   operators.scan, Rule.punctuation punctuation]

theorem consumes_rules : ∀ rule ∈ rules, Rule.Consumes rule := by
  simp only [rules, List.forall_mem_cons, List.not_mem_nil, false_imp_iff, implies_true, and_true]
  exact ⟨Rule.consumes_run _ _, CommentSyntax.consumes_scan CommentSyntax.sound_slashes,
    StringSyntax.consumes_scan _, consumes_scanRune, NumberSyntax.consumes_scan _,
    Vocabulary.consumes_scan _, OperatorSyntax.consumes_scan (by decide),
    Rule.consumes_single _ _⟩

/-- The lexer of the language. -/
def lexer : Lexer Unit := .ofRules rules consumes_rules

/-- A character in single quotes, in place. -/
def readRune : Reader := fun buffer start =>
  if buffer.reads start '\x27' then some (readCharacter buffer start) else none

/-- The readers of the language. -/
def readers : List Reader :=
  [Reader.whitespace, comments.read, strings.read, readRune, numbers.read, vocabulary.read,
   operators.read, Reader.punctuation punctuation]

/-- The scanner of the language. -/
def scanner : Scanner Unit := .ofReaders readers

end Highlight.Go
