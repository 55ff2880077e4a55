import Highlight.Comment
import Highlight.Lexer
import Highlight.Number
import Highlight.Operator
import Highlight.StringLiteral
import Highlight.Vocabulary

/-!
# Rust

Nothing depends on context, but much on the next few characters: a single quote opens a character
or a lifetime, `r#` a raw string or a raw identifier, and a word with an exclamation mark behind it
calls a macro.
-/

namespace Highlight.Rust

/-- Comments; block comments nest. -/
def comments : CommentSyntax := .nestedSlashes

/-- Strings in double quotes, which may span lines, with the affixes of bytes, C strings and raw
strings. -/
def strings : StringSyntax where
  single := false
  multiline := true
  affixes := ['b', 'c', 'r']
  maxAffix := 2
  hashedRaw := true

/-- Numbers with the suffixes of their types. A point needs a digit in front. -/
def numbers : NumberSyntax where
  leadingDot := false
  integerSuffixes := ["i8", "i16", "i32", "i64", "i128", "isize", "u8", "u16", "u32", "u64", "u128",
    "usize"]
  floatSuffixes := ["f32", "f64"]

/-- Operators. -/
def operators : OperatorSyntax where
  three := ["<<=", ">>=", "...", "..="]
  two := ["==", "!=", "<=", ">=", "&&", "||", "+=", "-=", "*=", "/=", "%=", "^=", "&=", "|=", "<<",
    ">>", "->", "=>", "::", ".."]
  one := "+-*/%^!&|=<>@?~"

/-- Punctuation, with the hash and the dollar sign of macro definitions. -/
def punctuation : AsciiSet := .chars "()[]\x7b\x7d;,.:#$"

/-- Words that are more than names. -/
def vocabulary : Vocabulary :=
  [(.keywordReserved, ["abstract", "become", "box", "do", "final", "macro", "override", "priv",
     "try", "typeof", "unsized", "virtual", "yield"]),
   (.keywordDeclaration, ["fn", "let", "const", "static", "struct", "enum", "trait", "type",
     "impl", "mod"]),
   (.keywordNamespace, ["use", "extern", "crate"]),
   (.keyword, ["as", "async", "await", "break", "continue", "dyn", "else", "for", "if", "in",
     "loop", "match", "move", "mut", "pub", "ref", "return", "unsafe", "where", "while"]),
   (.keywordPseudo, ["self", "Self", "super"]),
   (.keywordConstant, ["true", "false"]),
   (.keywordType, ["bool", "char", "str", "i8", "i16", "i32", "i64", "i128", "isize", "u8", "u16",
     "u32", "u64", "u128", "usize", "f32", "f64"]),
   (.nameBuiltin, ["Some", "None", "Ok", "Err", "Vec", "String", "Box", "Option", "Result"])]

/-- Whether a single quote, with the given text behind it, opens a character: an escape follows, or
a character with a single quote right behind it. -/
def opensCharacter : List Char → Bool
  | [] => false
  | c :: s => c == '\x5c' || s.head? == some '\x27'

/-- What a single quote opens: a character, or else a lifetime, or else nothing. -/
def scanQuote : Rule
  | [] => none
  | c :: s =>
    if c ≠ '\x27' then none
    else if opensCharacter s then some (scanCharacter s)
    else
      match behindIdentifier? s with
      | some rest => some ⟨.nameLabel, rest⟩
      | none => some ⟨.error, s⟩

/-- A byte: a character with a `b` in front. -/
def scanByte : Rule
  | 'b' :: '\x27' :: s => some (scanCharacter s)
  | _ => none

/-- A raw identifier. -/
def scanRawIdentifier : Rule
  | 'r' :: '#' :: s => (behindIdentifier? s).map fun rest => ⟨.name, rest⟩
  | _ => none

/-- The rest behind a path: identifiers with double colons between them. -/
def behindPath (s : List Char) : List Char :=
  match _h : behindIdentifier? s with
  | some (':' :: ':' :: rest) => behindPath rest
  | some rest => rest
  | none => s
termination_by s.length
decreasing_by
  have := (behindIdentifier?_suffix _h).length_le
  simp only [List.length_cons] at this
  omega

theorem behindPath_suffix (s : List Char) : behindPath s <:+ s := by
  fun_induction behindPath s with
  | case1 s rest h ih =>
      have hs : rest <:+ ':' :: ':' :: rest := ⟨[':', ':'], rfl⟩
      exact ih.trans (hs.trans (behindIdentifier?_suffix h))
  | case2 s rest _ h => exact behindIdentifier?_suffix h
  | case3 => exact List.suffix_rfl

/-- A text without the exclamation mark at its front. -/
def behindBang : List Char → List Char
  | [] => []
  | c :: s => if c = '!' then s else c :: s

theorem behindBang_suffix (s : List Char) : behindBang s <:+ s := by
  unfold behindBang
  split
  · exact List.suffix_rfl
  · split
    · exact List.suffix_cons ..
    · exact List.suffix_rfl

/-- The start of an attribute: the hash, the bracket, and the path behind it. -/
def scanAttribute : Rule
  | '#' :: s =>
    match behindBang s with
    | '[' :: s' => some ⟨.nameDecorator, behindPath s'⟩
    | _ => none
  | _ => none

/-- A word. One that is no keyword and has an exclamation mark behind it calls a macro, unless the
mark is part of an inequality. -/
def scanWord : Rule := fun s =>
  match behindIdentifier? s with
  | none => none
  | some rest =>
    let kind := vocabulary.kind (identifierOf s)
    match rest with
    | '!' :: rest' =>
      if rest'.head? ≠ some '=' ∧ ¬ kind.isKeyword then some ⟨.nameFunctionMagic, rest'⟩
      else some ⟨kind, '!' :: rest'⟩
    | rest => some ⟨kind, rest⟩

theorem consumes_scanQuote : Rule.Consumes scanQuote := by
  intro c s r hr
  simp only [scanQuote] at hr
  repeat' split at hr
  · cases hr
  · cases hr
    exact scanCharacter_suffix s
  · next rest hrest =>
      cases hr
      exact behindIdentifier?_suffix hrest
  · cases hr
    exact List.suffix_rfl

theorem consumes_scanByte : Rule.Consumes scanByte := by
  intro c s r hr
  unfold scanByte at hr
  split at hr
  · next s' heq =>
      cases heq
      cases hr
      exact (scanCharacter_suffix s').trans (List.suffix_cons ..)
  · cases hr

theorem consumes_scanRawIdentifier : Rule.Consumes scanRawIdentifier := by
  intro c s r hr
  unfold scanRawIdentifier at hr
  split at hr
  · next s' heq =>
      cases heq
      obtain ⟨rest, hrest, rfl⟩ := Option.map_eq_some_iff.1 hr
      exact (behindIdentifier?_suffix hrest).trans (List.suffix_cons ..)
  · cases hr

theorem consumes_scanAttribute : Rule.Consumes scanAttribute := by
  intro c s r hr
  unfold scanAttribute at hr
  split at hr
  · next s' heq =>
      cases heq
      split at hr
      · next s'' hb =>
          cases hr
          have hs : '[' :: s'' <:+ s := hb ▸ behindBang_suffix s
          exact (behindPath_suffix s'').trans ((List.suffix_cons ..).trans hs)
      · cases hr
  · cases hr

theorem consumes_scanWord : Rule.Consumes scanWord := by
  intro c s r hr
  simp only [scanWord] at hr
  split at hr
  · cases hr
  · next rest hrest =>
      have hs := behindIdentifier?_suffix_tail hrest
      repeat' split at hr
      · cases hr
        exact (List.suffix_cons ..).trans hs
      · cases hr
        exact hs
      · cases hr
        exact hs

/-- The rules of the language. -/
def rules : List Rule :=
  [Rule.whitespace, comments.scan, scanQuote, scanByte, strings.scan, scanRawIdentifier,
   numbers.scan, scanAttribute, scanWord, operators.scan, Rule.punctuation punctuation]

theorem consumes_rules : ∀ rule ∈ rules, Rule.Consumes rule := by
  simp only [rules, List.forall_mem_cons, List.not_mem_nil, false_imp_iff, implies_true, and_true]
  exact ⟨Rule.consumes_run _ _, CommentSyntax.consumes_scan CommentSyntax.sound_nestedSlashes,
    consumes_scanQuote, consumes_scanByte, StringSyntax.consumes_scan _,
    consumes_scanRawIdentifier, NumberSyntax.consumes_scan _, consumes_scanAttribute,
    consumes_scanWord, OperatorSyntax.consumes_scan (by decide), Rule.consumes_single _ _⟩

/-- The lexer of the language. -/
def lexer : Lexer Unit := .ofRules rules consumes_rules

/-- Whether a single quote, in front of an offset, opens a character. -/
def opensCharacterAt (buffer : Buffer) (offset : Nat) : Bool :=
  buffer.reads offset '\x5c' || buffer.reads (buffer.next offset) '\x27'

/-- What a single quote opens, in place. -/
def readQuote : Reader := fun buffer start =>
  if !buffer.reads start '\x27' then none
  else if opensCharacterAt buffer (start + 1) then some (readCharacter buffer start)
  else
    match buffer.identifier? (start + 1) with
    | some stop => some ⟨.nameLabel, stop⟩
    | none => some ⟨.error, start + 1⟩

/-- A byte in place. -/
def readByte : Reader := fun buffer start =>
  if buffer.startsWith start ['b', '\x27'] then some (readCharacter buffer (start + 1)) else none

/-- A raw identifier in place. -/
def readRawIdentifier : Reader := fun buffer start =>
  if buffer.startsWith start ['r', '#'] then
    (buffer.identifier? (start + 2)).map fun stop => ⟨.name, stop⟩
  else none

/-- The offset behind a path. -/
def pathStop (buffer : Buffer) (offset : Nat) : Nat :=
  match _hstop : buffer.identifier? offset with
  | none => offset
  | some stop =>
    if _hcolons : buffer.startsWith stop [':', ':'] then pathStop buffer (stop + 2) else stop
termination_by buffer.length - offset
decreasing_by
  have hle := Buffer.le_of_identifier? _hstop
  have hlt := Buffer.lt_length_of_identifier? _hstop
  have hcolons : stop + 2 ≤ buffer.length := Buffer.le_length_of_startsWith (by decide) _hcolons
  omega

/-- The start of an attribute in place. -/
def readAttribute : Reader := fun buffer start =>
  let bracket := if buffer.reads (start + 1) '!' then start + 2 else start + 1
  if buffer.reads start '#' && buffer.reads bracket '[' then
    some ⟨.nameDecorator, pathStop buffer (bracket + 1)⟩
  else none

/-- A word in place, with the exclamation mark of a macro. -/
def readWord : Reader := fun buffer start =>
  (buffer.identifier? start).map fun stop =>
    let kind := vocabulary.kind (buffer.slice start stop)
    if buffer.reads stop '!' && !buffer.reads (stop + 1) '=' && !kind.isKeyword then
      ⟨.nameFunctionMagic, stop + 1⟩
    else ⟨kind, stop⟩

/-- The readers of the language. -/
def readers : List Reader :=
  [Reader.whitespace, comments.read, readQuote, readByte, strings.read, readRawIdentifier,
   numbers.read, readAttribute, readWord, operators.read, Reader.punctuation punctuation]

/-- The scanner of the language. -/
def scanner : Scanner Unit := .ofReaders readers

end Highlight.Rust
