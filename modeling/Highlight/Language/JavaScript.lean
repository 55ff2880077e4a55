import Highlight.Comment
import Highlight.Interpolation
import Highlight.Lexer
import Highlight.Number
import Highlight.Operator
import Highlight.StringLiteral
import Highlight.Vocabulary

/-!
# JavaScript

Two things depend on context. Code inside a template stands in a field of it, which the nesting
keeps. And a slash opens a regular expression only where an operand is expected; elsewhere it
divides. One flag decides that, and every lexeme but white space and comments sets it anew.
-/

namespace Highlight.JavaScript

/-- Comments. -/
def comments : CommentSyntax := .slashes

/-- Strings in either quote. -/
def strings : StringSyntax := {}

/-- Numbers; an `n` makes a big integer. -/
def numbers : NumberSyntax where
  integerSuffixes := ["n"]

/-- Operators. -/
def operators : OperatorSyntax where
  four := [">>>="]
  three := ["===", "!==", ">>>", "**=", "&&=", "||=", "??=", "<<=", ">>=", "..."]
  two := ["==", "!=", "<=", ">=", "&&", "||", "??", "++", "--", "+=", "-=", "*=", "/=", "%=", "&=",
    "|=", "^=", "<<", ">>", "=>", "**", "?."]
  one := "+-*/%&|^~!<>=?:."

/-- Punctuation. -/
def punctuation : AsciiSet := .chars "()[]\x7b\x7d;,"

/-- Templates: backticks, with fields in a dollar sign and braces. -/
def template : TemplateSyntax where
  quote := '\x60'
  dollar := true
  multiline := true
  kind := .stringBacktick

/-- Words that are more than names. -/
def vocabulary : Vocabulary :=
  [(.keywordDeclaration, ["function", "class", "const", "let", "var"]),
   (.keywordNamespace, ["import", "export", "from"]),
   (.keyword, ["async", "await", "break", "case", "catch", "continue", "debugger", "default",
     "delete", "do", "else", "extends", "finally", "for", "if", "in", "instanceof", "new", "of",
     "return", "static", "super", "switch", "this", "throw", "try", "typeof", "void", "while",
     "with", "yield"]),
   (.keywordConstant, ["true", "false", "null", "undefined", "NaN", "Infinity"]),
   (.keywordReserved, ["enum", "implements", "interface", "package", "private", "protected",
     "public"]),
   (.nameBuiltin, ["Array", "Boolean", "Date", "Error", "Function", "JSON", "Map", "Math",
     "Number", "Object", "Promise", "Proxy", "Reflect", "RegExp", "Set", "String", "Symbol",
     "WeakMap", "WeakSet", "console", "document", "window", "globalThis", "parseInt", "parseFloat",
     "isNaN", "isFinite", "encodeURI", "decodeURI", "encodeURIComponent", "decodeURIComponent",
     "setTimeout", "setInterval", "clearTimeout", "clearInterval", "fetch", "require", "module",
     "exports"])]

/-- Where a scan stands. -/
structure State where
  /-- Nothing of the text has been scanned yet. -/
  fresh : Bool := true
  /-- An operand is expected, so that a slash opens a regular expression. -/
  operandNext : Bool := true
  nesting : Nesting := []
  deriving DecidableEq, Repr

/-- The rest behind a regular expression and its flags, from behind its opening slash. A slash in a
character class does not close it, and a newline ends it even when it is escaped. -/
def behindRegex (inClass : Bool) : List Char → List Char
  | [] => []
  | c :: s =>
    if c = '\x5c' then
      match s with
      | [] => []
      | d :: s' => if d = '\n' then d :: s' else behindRegex inClass s'
    else if c = '\n' then c :: s
    else if c = '[' then behindRegex true s
    else if c = ']' then behindRegex false s
    else if c = '/' ∧ ¬ inClass then s.dropWhile AsciiSet.letters.has
    else behindRegex inClass s

/-- A regular expression, where one may stand. -/
def scanRegex (operandNext : Bool) : Rule
  | [] => none
  | c :: s =>
    if c = '/' ∧ operandNext then some ⟨.stringRegex, behindRegex false s⟩ else none

/-- A word; a dollar sign is a letter. -/
def scanWord : Rule := fun s =>
  if atWord .identStartDollar s then
    some ⟨vocabulary.kind (wordOf .identContinueDollar s), behindWord .identContinueDollar s⟩
  else none

/-- The private member of a class. -/
def scanPrivate : Rule
  | [] => none
  | c :: s =>
    if c = '#' ∧ atWord .identStartDollar s then
      some ⟨.name, behindWord .identContinueDollar s⟩
    else none

/-- The rules in front of that for templates. -/
def leading (state : State) : List Rule :=
  [Rule.whitespace, scanHashbang state.fresh, comments.scan, scanRegex state.operandNext]

/-- The rules behind that for templates. -/
def trailing : List Rule :=
  [strings.scan, numbers.scan, scanWord, scanPrivate, operators.scan, Rule.punctuation punctuation]

/-- A lexeme of code, and the nesting behind it. -/
def scanCode (state : State) (nesting : Nesting) (c : Char) (s : List Char) : Match × Nesting :=
  match Rule.firstOf (leading state) (c :: s) with
  | some found => (found, nesting)
  | none =>
    if c = '\x60' then nesting.enter template s
    else (Lexer.scanOr .error (Rule.firstOf trailing) c s, nesting)

/-- The next lexeme, be it of a template or of code, and the nesting behind it. -/
def scan (state : State) (c : Char) (s : List Char) : Match × Nesting :=
  match state.nesting.settle (c :: s) with
  | (some found, nesting) => (found, nesting)
  | (none, nesting) =>
    match nesting.delimiter (c :: s) with
    | (some found, nesting) => (found, nesting)
    | (none, nesting) => scanCode state nesting c s

/-- Whether an operand is expected behind a lexeme, given whether one was expected in front of
it. -/
def operandAfter (kind : Kind) (text : List Char) (expected : Bool) : Bool :=
  if kind.isTrivia then expected
  else if kind = .operator then ¬ String.ofList text ∈ ["++", "--"]
  else if kind = .punctuation then ¬ String.ofList text ∈ [")", "]", "\x7d"]
  else if kind = .stringInterpol then String.ofList text = "$\x7b"
  else if kind = .keywordConstant then false
  else if kind.isKeyword then ¬ String.ofList text ∈ ["this", "super"]
  else false

/-- The next lexeme and the state behind it. -/
def step (state : State) (c : Char) (s : List Char) : Step State :=
  let (found, nesting) := scan state c s
  let text := before (c :: s) found.rest
  ⟨found.kind, found.rest,
    { fresh := false
      operandNext := operandAfter found.kind text state.operandNext
      nesting := nesting }⟩

theorem behindRegex_suffix (inClass : Bool) (s : List Char) : behindRegex inClass s <:+ s := by
  fun_induction behindRegex inClass s with
  | case1 => exact List.suffix_rfl
  | case2 => exact List.nil_suffix
  | case3 => exact List.suffix_cons ..
  | case4 inClass d s' _ ih =>
      exact ih.trans ((List.suffix_cons d s').trans (List.suffix_cons ..))
  | case5 => exact List.suffix_rfl
  | case6 _ s _ _ ih => exact ih.trans (List.suffix_cons ..)
  | case7 _ s _ _ _ ih => exact ih.trans (List.suffix_cons ..)
  | case8 => exact (List.dropWhile_suffix _).trans (List.suffix_cons ..)
  | case9 _ c s _ _ _ _ _ ih => exact ih.trans (List.suffix_cons ..)

theorem consumes_scanRegex (operandNext : Bool) : Rule.Consumes (scanRegex operandNext) := by
  intro c s r hr
  simp only [scanRegex] at hr
  split at hr
  · cases hr
    exact behindRegex_suffix false s
  · cases hr

theorem consumes_scanWord : Rule.Consumes scanWord := by
  intro c s r hr
  by_cases hc : startsWord .identStartDollar c = true
  · simp only [scanWord, atWord, hc, if_true, Option.some.injEq] at hr
    rw [← hr]
    refine behindWord_suffix_tail (continuesWord_of_startsWord (fun h => ?_) hc)
    simp only [AsciiSet.identStartDollar, AsciiSet.identContinueDollar, AsciiSet.identContinue,
      AsciiSet.union, Bool.or_eq_true] at h ⊢
    exact h.imp_left .inl
  · simp [scanWord, atWord, hc] at hr

theorem consumes_scanPrivate : Rule.Consumes scanPrivate := by
  intro c s r hr
  simp only [scanPrivate] at hr
  split at hr
  · cases hr
    exact behindWord_suffix ..
  · cases hr

theorem consumes_leading (state : State) : ∀ rule ∈ leading state, Rule.Consumes rule := by
  simp only [leading, List.forall_mem_cons, List.not_mem_nil, false_imp_iff, implies_true, and_true]
  exact ⟨Rule.consumes_run _ _, consumes_scanHashbang _,
    CommentSyntax.consumes_scan CommentSyntax.sound_slashes, consumes_scanRegex _⟩

theorem consumes_trailing : ∀ rule ∈ trailing, Rule.Consumes rule := by
  simp only [trailing, List.forall_mem_cons, List.not_mem_nil, false_imp_iff, implies_true,
    and_true]
  exact ⟨StringSyntax.consumes_scan _, NumberSyntax.consumes_scan _, consumes_scanWord,
    consumes_scanPrivate, OperatorSyntax.consumes_scan (by decide), Rule.consumes_single _ _⟩

theorem scanCode_suffix (state : State) (nesting : Nesting) (c : Char) (s : List Char) :
    (scanCode state nesting c s).1.rest <:+ s := by
  unfold scanCode
  split
  · next found h => exact Rule.consumes_firstOf (consumes_leading state) c s found h
  · split
    · exact Nesting.enter_suffix ..
    · exact Lexer.scanOr_suffix (Rule.consumes_firstOf consumes_trailing) c s

theorem scan_suffix (state : State) (c : Char) (s : List Char) :
    (scan state c s).1.rest <:+ s := by
  unfold scan
  split
  · next h => exact Nesting.settle_suffix h
  · split
    · next h => exact Nesting.delimiter_suffix h
    · exact scanCode_suffix ..

/-- The lexer of the language. -/
def lexer : Lexer State where
  start := {}
  step := step
  rest_suffix state c s := scan_suffix state c s

/-- Where a scan in place stands. -/
structure Place where
  /-- The offset the scan began at. -/
  rangeStart : Nat
  /-- An operand is expected, so that a slash opens a regular expression. -/
  operandNext : Bool := true
  nesting : Nesting := []
  deriving DecidableEq, Repr

/-- What is left of bytes behind a regular expression and its flags. -/
def behindRegexBytes (inClass : Bool) : List UInt8 → List UInt8
  | [] => []
  | byte :: s =>
    if byte = 0x5C then
      if s.head?.all (· == 0x0A) then s else behindRegexBytes inClass (ByteScan.character s)
    else if byte = 0x0A then byte :: s
    else if byte = 0x5B then behindRegexBytes true s
    else if byte = 0x5D then behindRegexBytes false s
    else if byte = 0x2F ∧ ¬ inClass then s.dropWhile AsciiSet.letters.hasByte
    else behindRegexBytes inClass s
termination_by s => s.length
decreasing_by
  all_goals have := ByteScan.length_character_le s
  all_goals simp only [List.length_cons]
  all_goals omega

/-- A regular expression in place, where one may stand. -/
def readRegex (operandNext : Bool) : Reader := fun buffer start =>
  if buffer.reads start '/' && operandNext then
    some ⟨.stringRegex, buffer.seek (behindRegexBytes false) (start + 1)⟩
  else none

/-- A word in place. -/
def readWord : Reader := fun buffer start =>
  if buffer.startsWord .identStartDollar start then
    let stop := buffer.word .identContinueDollar start
    some ⟨vocabulary.kind (buffer.slice start stop), stop⟩
  else none

/-- The private member of a class, in place. -/
def readPrivate : Reader := fun buffer start =>
  if buffer.reads start '#' && buffer.startsWord .identStartDollar (start + 1) then
    some ⟨.name, buffer.word .identContinueDollar (start + 1)⟩
  else none

/-- The readers in front of that for templates. -/
def leadingReaders (place : Place) : List Reader :=
  [Reader.whitespace, readHashbang place.rangeStart, comments.read, readRegex place.operandNext]

/-- The readers behind that for templates. -/
def trailingReaders : List Reader :=
  [strings.read, numbers.read, readWord, readPrivate, operators.read,
   Reader.punctuation punctuation]

/-- A lexeme of code in place, and the nesting behind it. -/
def codeAt (place : Place) (nesting : Nesting) (buffer : Buffer) (start : Nat) : Span × Nesting :=
  match Reader.firstOf (leadingReaders place) buffer start with
  | some span => (span, nesting)
  | none =>
    if buffer.reads start '\x60' then nesting.enterAt template buffer (start + 1)
    else (Reader.orCharacter .error (Reader.firstOf trailingReaders) buffer start, nesting)

/-- The lexeme at an offset, be it of a template or of code, and the nesting behind it. Frames that
end at the end of the buffer are left before the scan is done. -/
def lexemeAt? (buffer : Buffer) (start : Nat) (place : Place) : Option (Span × Nesting) :=
  match place.nesting.settleAt buffer start with
  | (some span, nesting) => some (span, nesting)
  | (none, nesting) =>
    if buffer.length ≤ start then none
    else
      match nesting.delimiterAt buffer start with
      | (some span, nesting) => some (span, nesting)
      | (none, nesting) => some (codeAt place nesting buffer start)

/-- The lexeme at an offset and the state behind it. -/
def next (buffer : Buffer) (start : Nat) (place : Place) : Option (Found Place) :=
  (lexemeAt? buffer start place).map fun (span, nesting) =>
    let text := buffer.slice start span.stop
    ⟨span.kind, span.stop,
      { place with operandNext := operandAfter span.kind text place.operandNext, nesting }⟩

/-- The scanner of the language. -/
def scanner : Scanner Place where
  start rangeStart := { rangeStart }
  next := next

end Highlight.JavaScript
