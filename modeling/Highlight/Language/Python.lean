import Highlight.Comment
import Highlight.Interpolation
import Highlight.Lexer
import Highlight.Number
import Highlight.Operator
import Highlight.StringLiteral
import Highlight.Vocabulary

/-!
# Python

Three things depend on context: a line at the very front may name an interpreter, an at sign with a
word behind it is a decorator only where nothing but white space is in front of it on its line, and
an f-string is literal text and fields whose code is scanned like any other.
-/

namespace Highlight.Python

/-- Comments. -/
def comments : CommentSyntax := .hash

/-- Strings in either quote, single or tripled, with affixes of up to two letters. -/
def strings : StringSyntax where
  triple := true
  affixes := ['r', 'R', 'b', 'B', 'u', 'U', 'f', 'F']
  maxAffix := 2
  tripleKind := .stringDoc

/-- Numbers; a `j` makes one imaginary. -/
def numbers : NumberSyntax where
  imaginarySuffixes := ["j", "J"]

/-- Operators. -/
def operators : OperatorSyntax where
  three := ["**=", "//=", ">>=", "<<="]
  two := ["**", "//", "==", "!=", "<=", ">=", "<<", ">>", "+=", "-=", "*=", "/=", "%=", "&=", "|=",
    "^=", "@=", "->", ":="]
  one := "+-*/%@&|^~<>=!"

/-- Punctuation. -/
def punctuation : AsciiSet := .chars "()[]\x7b\x7d:;,."

/-- Words that are more than names. -/
def vocabulary : Vocabulary :=
  [(.keywordDeclaration, ["def", "class"]),
   (.keywordNamespace, ["import", "from"]),
   (.keyword, ["and", "as", "assert", "async", "await", "break", "continue", "del", "elif", "else",
     "except", "finally", "for", "global", "if", "in", "is", "lambda", "nonlocal", "not", "or",
     "pass", "raise", "return", "try", "while", "with", "yield"]),
   (.keywordConstant, ["True", "False", "None"]),
   (.nameBuiltinPseudo, ["self", "cls"]),
   (.nameException, ["ArithmeticError", "AssertionError", "AttributeError", "BaseException",
     "BlockingIOError", "BrokenPipeError", "BufferError", "ConnectionError", "EOFError",
     "Exception", "FileExistsError", "FileNotFoundError", "FloatingPointError", "GeneratorExit",
     "ImportError", "IndentationError", "IndexError", "InterruptedError", "IsADirectoryError",
     "KeyError", "KeyboardInterrupt", "LookupError", "MemoryError", "ModuleNotFoundError",
     "NameError", "NotADirectoryError", "NotImplementedError", "OSError", "OverflowError",
     "PermissionError", "RecursionError", "ReferenceError", "RuntimeError", "StopAsyncIteration",
     "StopIteration", "SyntaxError", "SystemError", "SystemExit", "TimeoutError", "TypeError",
     "UnboundLocalError", "UnicodeDecodeError", "UnicodeEncodeError", "UnicodeError", "ValueError",
     "ZeroDivisionError", "Warning", "DeprecationWarning", "UserWarning"]),
   (.nameBuiltin, ["abs", "all", "any", "ascii", "bin", "bool", "breakpoint", "bytearray", "bytes",
     "callable", "chr", "classmethod", "compile", "complex", "delattr", "dict", "dir", "divmod",
     "enumerate", "eval", "exec", "filter", "float", "format", "frozenset", "getattr", "globals",
     "hasattr", "hash", "help", "hex", "id", "input", "int", "isinstance", "issubclass", "iter",
     "len", "list", "locals", "map", "max", "memoryview", "min", "next", "object", "oct", "open",
     "ord", "pow", "print", "property", "range", "repr", "reversed", "round", "set", "setattr",
     "slice", "sorted", "staticmethod", "str", "sum", "super", "tuple", "type", "vars", "zip",
     "NotImplemented", "Ellipsis"])]

/-- Whether a word has two underscores at either end and something between them. -/
def isMagic (word : List Char) : Bool :=
  4 < word.length && ['_', '_'].isPrefixOf word && ['_', '_'].isSuffixOf word

/-- The kind of a word. -/
def wordKind (word : List Char) : Kind :=
  (vocabulary.lookup? word).getD (if isMagic word then .nameFunctionMagic else .name)

/-- Where a scan stands. -/
structure State where
  /-- Nothing of the text has been scanned yet. -/
  fresh : Bool := true
  /-- Nothing but white space is in front on this line. -/
  lineStart : Bool := true
  nesting : Nesting := []
  deriving DecidableEq, Repr

/-- The rest behind a name with points in it, from its first character on. -/
def behindDotted (s : List Char) : List Char :=
  match _h : behindWord .identContinue s with
  | '.' :: s' => if atWord .identStart s' then behindDotted s' else '.' :: s'
  | rest => rest
termination_by s.length
decreasing_by
  have := (behindWord_suffix .identContinue s).length_le
  rw [_h] at this
  simp only [List.length_cons] at this
  omega

/-- A decorator, where one may stand. -/
def scanDecorator (lineStart : Bool) : Rule
  | [] => none
  | c :: s =>
    if c = '@' ∧ lineStart ∧ atWord .identStart s then some ⟨.nameDecorator, behindDotted s⟩
    else none

/-- A word. -/
def scanWord : Rule := fun s =>
  match behindIdentifier? s with
  | none => none
  | some rest => some ⟨wordKind (identifierOf s), rest⟩

/-- The backslash that continues a line. -/
def scanContinuation : Rule
  | [] => none
  | c :: s => if c = '\x5c' then some ⟨.text, s⟩ else none

/-- The style of an f-string at the front of a text, and what is behind its opening quote. -/
def fString? (s : List Char) : Option (TemplateSyntax × List Char) :=
  match strings.affix? s with
  | none => none
  | some affix =>
    if affix.any fun c => c == 'f' || c == 'F' then
      match s.drop affix.length with
      | [] => none
      | quote :: s' =>
        match [quote, quote].isPrefixOf? s' with
        | some body => some ({ quote, triple := true, kind := .string }, body)
        | none => some ({ quote, kind := .string }, s')
    else none

/-- The rules in front of that for f-strings, white space aside. -/
def leading (state : State) : List Rule :=
  [scanHashbang state.fresh, comments.scan]

/-- The rules behind that for f-strings. -/
def trailing (state : State) : List Rule :=
  [strings.scan, numbers.scan, scanDecorator state.lineStart, scanWord, operators.scan,
   Rule.punctuation punctuation, scanContinuation]

/-- A lexeme of code that is not white space, and the nesting behind it. -/
def scanToken (state : State) (nesting : Nesting) (c : Char) (s : List Char) : Match × Nesting :=
  match Rule.firstOf (leading state) (c :: s) with
  | some found => (found, nesting)
  | none =>
    match fString? (c :: s) with
    | some (style, body) => nesting.enter style body
    | none => (Lexer.scanOr .error (Rule.firstOf (trailing state)) c s, nesting)

/-- A lexeme of code. White space keeps the start of a line and may be one; anything else ends
it. -/
def stepCode (state : State) (nesting : Nesting) (c : Char) (s : List Char) : Step State :=
  match Rule.whitespace (c :: s) with
  | some found =>
    let space := (c :: s).takeWhile AsciiSet.whitespace.has
    ⟨found.kind, found.rest,
      { fresh := false, lineStart := state.lineStart || space.contains '\n', nesting }⟩
  | none =>
    let (found, nesting) := scanToken state nesting c s
    ⟨found.kind, found.rest, { fresh := false, lineStart := false, nesting }⟩

/-- The next lexeme and the state behind it. Literal text and the delimiters of fields leave alone
what is known about the line. -/
def step (state : State) (c : Char) (s : List Char) : Step State :=
  match state.nesting.settle (c :: s) with
  | (some found, nesting) =>
    ⟨found.kind, found.rest, { state with fresh := false, nesting }⟩
  | (none, nesting) =>
    match nesting.delimiter (c :: s) with
    | (some found, nesting) =>
      ⟨found.kind, found.rest, { state with fresh := false, nesting }⟩
    | (none, nesting) => stepCode state nesting c s

theorem behindDotted_suffix (s : List Char) : behindDotted s <:+ s := by
  fun_induction behindDotted s with
  | case1 s s' h _ ih =>
      have hs : '.' :: s' <:+ s := h ▸ behindWord_suffix ..
      exact ih.trans ((List.suffix_cons ..).trans hs)
  | case2 s s' h _ => exact h ▸ behindWord_suffix ..
  | case3 s => exact behindWord_suffix ..

theorem consumes_scanDecorator (lineStart : Bool) : Rule.Consumes (scanDecorator lineStart) := by
  intro c s r hr
  simp only [scanDecorator] at hr
  split at hr
  · cases hr
    exact behindDotted_suffix s
  · cases hr

theorem consumes_scanWord : Rule.Consumes scanWord := by
  intro c s r hr
  simp only [scanWord] at hr
  split at hr
  · cases hr
  · next hrest =>
      cases hr
      exact behindIdentifier?_suffix_tail hrest

theorem consumes_scanContinuation : Rule.Consumes scanContinuation := by
  intro c s r hr
  simp only [scanContinuation] at hr
  split at hr
  · cases hr
    exact List.suffix_rfl
  · cases hr

theorem fString?_suffix {c : Char} {s : List Char} {r : TemplateSyntax × List Char}
    (h : fString? (c :: s) = some r) : r.2 <:+ s := by
  simp only [fString?] at h
  split at h
  · cases h
  · next affix _ =>
      split at h
      · split at h
        · cases h
        · next quote s' hq =>
            have hs : s' <:+ s := by
              have hd : quote :: s' <:+ c :: s := hq ▸ List.drop_suffix ..
              rcases List.suffix_cons_iff.1 hd with heq | hd
              · cases heq
                exact List.suffix_rfl
              · exact (List.suffix_cons ..).trans hd
            split at h
            · next hb =>
                cases h
                exact (suffix_of_isPrefixOf? hb).trans hs
            · cases h
              exact hs
      · cases h

theorem consumes_leading (state : State) : ∀ rule ∈ leading state, Rule.Consumes rule := by
  simp only [leading, List.forall_mem_cons, List.not_mem_nil, false_imp_iff, implies_true, and_true]
  exact ⟨consumes_scanHashbang _, CommentSyntax.consumes_scan CommentSyntax.sound_hash⟩

theorem consumes_trailing (state : State) : ∀ rule ∈ trailing state, Rule.Consumes rule := by
  simp only [trailing, List.forall_mem_cons, List.not_mem_nil, false_imp_iff, implies_true,
    and_true]
  exact ⟨StringSyntax.consumes_scan _, NumberSyntax.consumes_scan _, consumes_scanDecorator _,
    consumes_scanWord, OperatorSyntax.consumes_scan (by decide), Rule.consumes_single _ _,
    consumes_scanContinuation⟩

theorem scanToken_suffix (state : State) (nesting : Nesting) (c : Char) (s : List Char) :
    (scanToken state nesting c s).1.rest <:+ s := by
  unfold scanToken
  split
  · next found h => exact Rule.consumes_firstOf (consumes_leading state) c s found h
  · split
    · next h => exact (Nesting.enter_suffix ..).trans (fString?_suffix h)
    · exact Lexer.scanOr_suffix (Rule.consumes_firstOf (consumes_trailing state)) c s

theorem stepCode_suffix (state : State) (nesting : Nesting) (c : Char) (s : List Char) :
    (stepCode state nesting c s).rest <:+ s := by
  unfold stepCode
  split
  · next found h => exact Rule.consumes_run _ _ c s found h
  · exact scanToken_suffix ..

theorem step_suffix (state : State) (c : Char) (s : List Char) :
    (step state c s).rest <:+ s := by
  unfold step
  split
  · next h => exact Nesting.settle_suffix h
  · split
    · next h => exact Nesting.delimiter_suffix h
    · exact stepCode_suffix ..

/-- The lexer of the language. -/
def lexer : Lexer State where
  start := {}
  step := step
  rest_suffix := step_suffix

/-- Where a scan in place stands. -/
structure Place where
  /-- The offset the scan began at. -/
  rangeStart : Nat
  /-- Nothing but white space is in front on this line. -/
  lineStart : Bool := true
  nesting : Nesting := []
  deriving DecidableEq, Repr

/-- The offset behind a name with points in it. -/
def dottedStop (buffer : Buffer) (offset : Nat) : Nat :=
  let stop := buffer.word .identContinue offset
  if _hpoint : buffer.reads stop '.' ∧ buffer.startsWord .identStart (stop + 1) then
    dottedStop buffer (stop + 1)
  else stop
termination_by buffer.length - offset
decreasing_by
  have hlt := Buffer.lt_length_of_reads _hpoint.1
  have hle := Buffer.le_word_of_lt hlt
  omega

/-- A decorator in place, where one may stand. -/
def readDecorator (lineStart : Bool) : Reader := fun buffer start =>
  if buffer.reads start '@' && lineStart && buffer.startsWord .identStart (start + 1) then
    some ⟨.nameDecorator, dottedStop buffer (start + 1)⟩
  else none

/-- A word in place. -/
def readWord : Reader := fun buffer start =>
  (buffer.identifier? start).map fun stop => ⟨wordKind (buffer.slice start stop), stop⟩

/-- The backslash that continues a line, in place. -/
def readContinuation : Reader := fun buffer start =>
  if buffer.reads start '\x5c' then some ⟨.text, start + 1⟩ else none

/-- The style of an f-string at an offset, and the offset behind its opening quotes. -/
def fStringAt? (buffer : Buffer) (start : Nat) : Option (TemplateSyntax × Nat) :=
  (strings.opening? buffer start).bind fun opening =>
    if (buffer.slice start opening).any fun c => c == 'f' || c == 'F' then
      let quote := buffer.current opening
      if buffer.startsWith opening [quote, quote, quote] then
        some ({ quote, triple := true, kind := .string }, opening + 3)
      else some ({ quote, kind := .string }, opening + 1)
    else none

/-- The readers in front of that for f-strings, white space aside. -/
def leadingReaders (place : Place) : List Reader :=
  [readHashbang place.rangeStart, comments.read]

/-- The readers behind that for f-strings. -/
def trailingReaders (place : Place) : List Reader :=
  [strings.read, numbers.read, readDecorator place.lineStart, readWord, operators.read,
   Reader.punctuation punctuation, readContinuation]

/-- A lexeme of code in place that is not white space, and the nesting behind it. -/
def tokenAt (place : Place) (nesting : Nesting) (buffer : Buffer) (start : Nat) : Span × Nesting :=
  match Reader.firstOf (leadingReaders place) buffer start with
  | some span => (span, nesting)
  | none =>
    match fStringAt? buffer start with
    | some (style, body) => nesting.enterAt style buffer body
    | none =>
      (Reader.orCharacter .error (Reader.firstOf (trailingReaders place)) buffer start, nesting)

/-- A lexeme of code in place. -/
def codeAt (place : Place) (nesting : Nesting) (buffer : Buffer) (start : Nat) : Found Place :=
  match Reader.whitespace buffer start with
  | some span =>
    let lineStart := place.lineStart || (buffer.slice start span.stop).contains '\n'
    ⟨span.kind, span.stop, { place with lineStart, nesting }⟩
  | none =>
    let (span, nesting) := tokenAt place nesting buffer start
    ⟨span.kind, span.stop, { place with lineStart := false, nesting }⟩

/-- The lexeme at an offset. Frames that end at the end of the buffer are left before the scan is
done. -/
def next (buffer : Buffer) (start : Nat) (place : Place) : Option (Found Place) :=
  match place.nesting.settleAt buffer start with
  | (some span, nesting) => some ⟨span.kind, span.stop, { place with nesting }⟩
  | (none, nesting) =>
    if buffer.length ≤ start then none
    else
      match nesting.delimiterAt buffer start with
      | (some span, nesting) => some ⟨span.kind, span.stop, { place with nesting }⟩
      | (none, nesting) => some (codeAt place nesting buffer start)

/-- The scanner of the language. -/
def scanner : Scanner Place where
  start rangeStart := { rangeStart }
  next := next

end Highlight.Python
