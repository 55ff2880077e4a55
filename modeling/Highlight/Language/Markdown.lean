import Highlight.Lexer
import Highlight.Reader

/-!
# Markdown

Blocks (headings, quotes, lists, rules, code) are looked for only where nothing but spaces and tabs
is in front on the line; inline constructs anywhere; all else is text. Nothing is an error.
-/

namespace Highlight.Markdown

/-- Where a run of text stops to look for something else. -/
def textStop : AsciiSet := .chars "\n\x60*_[]!#>-+"

/-- Spaces and tabs. -/
def blanks : AsciiSet := .chars " \t"

/-- What may mark an item of a list. -/
def listMarkers : AsciiSet := .chars "-*+"

/-- What a horizontal rule is made of. -/
def ruleMarkers : AsciiSet := .chars "-*_"

/-- Whether a text begins with a space or a tab. -/
def atBlank : List Char → Bool
  | [] => false
  | c :: _ => blanks.has c

/-- The rest behind a fenced block, from its opening fence on: the end of the first later line that
begins with the fence. -/
def behindFenced (fence : List Char) : List Char → List Char
  | [] => []
  | c :: s =>
    if c = '\n' ∧ fence.isPrefixOf s then fromNewline s else behindFenced fence s

/-- A block between fences of three backticks or tildes. -/
def scanFenced : Rule
  | [] => none
  | c :: s =>
    if (c = '\x60' ∨ c = '~') ∧ [c, c].isPrefixOf s then
      some ⟨.string, behindFenced [c, c, c] s⟩
    else none

/-- A line of code, which is set in by four spaces or a tab. -/
def scanIndented : Rule
  | [] => none
  | c :: s =>
    if c = '\t' ∨ (c = ' ' ∧ [' ', ' ', ' '].isPrefixOf s) then some ⟨.string, fromNewline s⟩
    else none

/-- A heading: hashes with a space or a tab behind them. Without one, hashes are text. -/
def scanHeading : Rule
  | [] => none
  | c :: s =>
    if c ≠ '#' then none
    else
      let rest := s.dropWhile (· == '#')
      if atBlank rest then some ⟨.genericHeading, fromNewline rest⟩ else some ⟨.text, rest⟩

/-- A line of a quotation. -/
def scanQuotation : Rule
  | [] => none
  | c :: s => if c = '>' then some ⟨.genericOutput, fromNewline s⟩ else none

/-- The marker of an item in an unordered list. -/
def scanBullet : Rule
  | [] => none
  | c :: s => if listMarkers.has c ∧ atBlank s then some ⟨.punctuation, s⟩ else none

/-- The marker of an item in an ordered list: digits and a point. Other digits are text. -/
def scanOrdinal : Rule
  | [] => none
  | c :: s =>
    if ¬ AsciiSet.digits.has c then none
    else
      match s.dropWhile AsciiSet.digits.has with
      | '.' :: rest =>
        if atBlank rest then some ⟨.punctuation, rest⟩ else some ⟨.text, '.' :: rest⟩
      | rest => some ⟨.text, rest⟩

/-- A horizontal rule: three or more of one marker, with spaces and tabs among them, and nothing
else up to the end of the line. -/
def scanRule : Rule
  | [] => none
  | c :: s =>
    let run := s.takeWhile fun d => d == c || blanks.has d
    let rest := s.drop run.length
    if ruleMarkers.has c ∧ 2 ≤ run.count c ∧ rest.head?.all (· == '\n') then
      some ⟨.punctuation, rest⟩
    else none

/-- The rules at the start of a line. -/
def blockRules : List Rule :=
  [scanFenced, scanIndented, scanHeading, scanQuotation, scanBullet, scanOrdinal, scanRule]

/-- The rest behind the first closing character, or in front of the newline if that comes first. -/
def behindOnLine (closing : Char) (s : List Char) : List Char :=
  match s.dropWhile fun c => c != closing && c != '\n' with
  | [] => []
  | c :: rest => if c = closing then rest else c :: rest

/-- A span of code. -/
def scanCodeSpan : Rule
  | [] => none
  | c :: s => if c = '\x60' then some ⟨.string, behindOnLine '\x60' s⟩ else none

/-- A run of emphasis markers. Its length tells what it means. -/
def scanEmphasis : Rule
  | [] => none
  | c :: s =>
    if c = '*' ∨ c = '_' then
      let more := s.takeWhile (· == c)
      let kind : Kind :=
        match more.length with
        | 0 => .genericEmph
        | 1 | 2 => .genericStrong
        | _ => .text
      some ⟨kind, s.drop more.length⟩
    else none

/-- What is left behind a text in brackets, from inside of `depth` of them: how many are still open,
and the rest. Brackets nest, and a newline stops the scan. -/
def behindBrackets : Nat → List Char → Nat × List Char
  | 0, s => (0, s)
  | depth + 1, [] => (depth + 1, [])
  | depth + 1, c :: s =>
    if c = '[' then behindBrackets (depth + 2) s
    else if c = ']' then behindBrackets depth s
    else if c = '\n' then (depth + 1, c :: s)
    else behindBrackets (depth + 1) s

/-- The rest behind the target of a link, in parentheses or brackets, if there is one. -/
def behindTarget (s : List Char) : List Char :=
  match s with
  | '(' :: rest => behindOnLine ')' rest
  | '[' :: rest => behindOnLine ']' rest
  | rest => rest

/-- The rest behind a link, from behind its opening bracket. -/
def behindLink (s : List Char) : List Char :=
  match behindBrackets 1 s with
  | (0, rest) => behindTarget rest
  | (_, rest) => rest

/-- A link. -/
def scanLink : Rule
  | [] => none
  | c :: s => if c = '[' then some ⟨.nameLabel, behindLink s⟩ else none

/-- The rest behind an image, from behind its opening bracket: the text, up to the first closing
bracket, and the address, if there is one. -/
def behindImage (s : List Char) : List Char :=
  match s.dropWhile fun c => c != ']' && c != '\n' with
  | ']' :: '(' :: rest => behindOnLine ')' rest
  | ']' :: rest => rest
  | rest => rest

/-- An image. -/
def scanImage : Rule
  | '!' :: '[' :: s => some ⟨.nameLabel, behindImage s⟩
  | _ => none

/-- The rules anywhere in a line. -/
def inlineRules : List Rule := [scanCodeSpan, scanEmphasis, scanLink, scanImage]

/-- A step in text. Spaces and tabs leave alone what is known about the line. A character that could
begin something else, and does not, is text. -/
def stepText (lineStart : Bool) (c : Char) (s : List Char) : Step Bool :=
  if textStop.has c then ⟨.text, s, false⟩
  else
    let text := s.takeWhile fun d => !textStop.has d
    let rest := s.drop text.length
    if (c :: text).all blanks.has then ⟨.whitespace, rest, lineStart⟩
    else ⟨.text, rest, false⟩

/-- The next lexeme, and whether nothing but spaces and tabs is in front on the line behind it. -/
def step (lineStart : Bool) (c : Char) (s : List Char) : Step Bool :=
  if c = '\n' then ⟨.whitespace, s, true⟩
  else
    let rules := if lineStart then blockRules ++ inlineRules else inlineRules
    match Rule.firstOf rules (c :: s) with
    | some found => ⟨found.kind, found.rest, false⟩
    | none => stepText lineStart c s

/-! ## Every step leaves an ending of the text

A lexer is given with the proof that each of its steps takes something. Whatever a rule has to look
for, it looks for behind the first character, and it leaves an ending of what is there. -/

theorem behindFenced_suffix (fence s : List Char) : behindFenced fence s <:+ s := by
  induction s with
  | nil => exact List.suffix_rfl
  | cons c s ih =>
      simp only [behindFenced]
      split
      · exact (fromNewline_suffix s).trans (List.suffix_cons c s)
      · exact ih.trans (List.suffix_cons c s)

theorem consumes_scanFenced : Rule.Consumes scanFenced := by
  intro c s r hr
  simp only [scanFenced] at hr
  split at hr
  · cases hr
    exact behindFenced_suffix ..
  · cases hr

theorem consumes_scanIndented : Rule.Consumes scanIndented := by
  intro c s r hr
  simp only [scanIndented] at hr
  split at hr
  · cases hr
    exact fromNewline_suffix s
  · cases hr

theorem consumes_scanHeading : Rule.Consumes scanHeading := by
  intro c s r hr
  simp only [scanHeading] at hr
  repeat' split at hr
  · cases hr
  · cases hr
    exact (fromNewline_suffix _).trans (List.dropWhile_suffix _)
  · cases hr
    exact List.dropWhile_suffix _

theorem consumes_scanQuotation : Rule.Consumes scanQuotation := by
  intro c s r hr
  simp only [scanQuotation] at hr
  split at hr
  · cases hr
    exact fromNewline_suffix s
  · cases hr

theorem consumes_scanBullet : Rule.Consumes scanBullet := by
  intro c s r hr
  simp only [scanBullet] at hr
  split at hr
  · cases hr
    exact List.suffix_rfl
  · cases hr

theorem consumes_scanOrdinal : Rule.Consumes scanOrdinal := by
  intro c s r hr
  have hs := List.dropWhile_suffix (l := s) AsciiSet.digits.has
  simp only [scanOrdinal] at hr
  split at hr
  · cases hr
  · split at hr
    · next rest heq =>
        rw [heq] at hs
        split at hr
        · cases hr
          exact (List.suffix_cons ..).trans hs
        · cases hr
          exact hs
    · cases hr
      exact hs

theorem consumes_scanRule : Rule.Consumes scanRule := by
  intro c s r hr
  simp only [scanRule] at hr
  split at hr
  · cases hr
    exact List.drop_suffix ..
  · cases hr

theorem behindOnLine_suffix (closing : Char) (s : List Char) : behindOnLine closing s <:+ s := by
  have hs := List.dropWhile_suffix (l := s) fun c => c != closing && c != '\n'
  unfold behindOnLine
  split
  · exact List.nil_suffix
  · next c rest heq =>
      rw [heq] at hs
      split
      · exact (List.suffix_cons ..).trans hs
      · exact hs

theorem consumes_scanCodeSpan : Rule.Consumes scanCodeSpan := by
  intro c s r hr
  simp only [scanCodeSpan] at hr
  split at hr
  · cases hr
    exact behindOnLine_suffix ..
  · cases hr

theorem consumes_scanEmphasis : Rule.Consumes scanEmphasis := by
  intro c s r hr
  simp only [scanEmphasis] at hr
  split at hr
  · cases hr
    exact List.drop_suffix ..
  · cases hr

theorem behindBrackets_suffix (depth : Nat) (s : List Char) : (behindBrackets depth s).2 <:+ s := by
  fun_induction behindBrackets depth s with
  | case1 => exact List.suffix_rfl
  | case2 => exact List.suffix_rfl
  | case3 _ s ih => exact ih.trans (List.suffix_cons ..)
  | case4 _ s _ ih => exact ih.trans (List.suffix_cons ..)
  | case5 => exact List.suffix_rfl
  | case6 _ c s _ _ _ ih => exact ih.trans (List.suffix_cons c s)

theorem behindTarget_suffix (s : List Char) : behindTarget s <:+ s := by
  unfold behindTarget
  split
  · exact (behindOnLine_suffix ..).trans (List.suffix_cons ..)
  · exact (behindOnLine_suffix ..).trans (List.suffix_cons ..)
  · exact List.suffix_rfl

theorem behindLink_suffix (s : List Char) : behindLink s <:+ s := by
  have hs := behindBrackets_suffix 1 s
  unfold behindLink
  split
  · next rest heq =>
      rw [heq] at hs
      exact (behindTarget_suffix rest).trans hs
  · next rest _ heq =>
      rw [heq] at hs
      exact hs

theorem consumes_scanLink : Rule.Consumes scanLink := by
  intro c s r hr
  simp only [scanLink] at hr
  split at hr
  · cases hr
    exact behindLink_suffix s
  · cases hr

theorem behindImage_suffix (s : List Char) : behindImage s <:+ s := by
  have hs := List.dropWhile_suffix (l := s) fun c => c != ']' && c != '\n'
  unfold behindImage
  split
  · next rest heq =>
      rw [heq] at hs
      exact (behindOnLine_suffix ..).trans
        ((List.suffix_cons ..).trans ((List.suffix_cons ..).trans hs))
  · next rest _ heq =>
      rw [heq] at hs
      exact (List.suffix_cons ..).trans hs
  · exact hs

theorem consumes_scanImage : Rule.Consumes scanImage := by
  intro c s r hr
  unfold scanImage at hr
  split at hr
  · next s' heq =>
      cases heq
      cases hr
      exact (behindImage_suffix s').trans (List.suffix_cons ..)
  · cases hr

theorem consumes_blockRules : ∀ rule ∈ blockRules, Rule.Consumes rule := by
  simp only [blockRules, List.forall_mem_cons, List.not_mem_nil, false_imp_iff, implies_true,
    and_true]
  exact ⟨consumes_scanFenced, consumes_scanIndented, consumes_scanHeading, consumes_scanQuotation,
    consumes_scanBullet, consumes_scanOrdinal, consumes_scanRule⟩

theorem consumes_inlineRules : ∀ rule ∈ inlineRules, Rule.Consumes rule := by
  simp only [inlineRules, List.forall_mem_cons, List.not_mem_nil, false_imp_iff, implies_true,
    and_true]
  exact ⟨consumes_scanCodeSpan, consumes_scanEmphasis, consumes_scanLink, consumes_scanImage⟩

theorem consumes_rules (lineStart : Bool) :
    ∀ rule ∈ (if lineStart then blockRules ++ inlineRules else inlineRules),
      Rule.Consumes rule := by
  intro rule hrule
  split at hrule
  · rcases List.mem_append.1 hrule with h | h
    · exact consumes_blockRules rule h
    · exact consumes_inlineRules rule h
  · exact consumes_inlineRules rule hrule

theorem stepText_suffix (lineStart : Bool) (c : Char) (s : List Char) :
    (stepText lineStart c s).rest <:+ s := by
  unfold stepText
  dsimp only
  repeat' split
  · exact List.suffix_rfl
  · exact List.drop_suffix ..
  · exact List.drop_suffix ..

theorem step_suffix (lineStart : Bool) (c : Char) (s : List Char) :
    (step lineStart c s).rest <:+ s := by
  unfold step
  split
  · exact List.suffix_rfl
  · dsimp only
    split
    · next found h => exact Rule.consumes_firstOf (consumes_rules lineStart) c s found h
    · exact stepText_suffix ..

/-- The lexer of the language. -/
def lexer : Lexer Bool where
  start := true
  step := step
  rest_suffix := step_suffix

/-! ## In place

In a buffer the same constructs are found by offsets. What closes a fenced block, and what closes
the brackets of a link, is searched for among the bytes, one after the other.
-/

/-- What is left of bytes behind a fenced block, from the end of its first line on. -/
def behindFencedBytes (fence : List UInt8) : List UInt8 → List UInt8
  | [] => []
  | byte :: s =>
    if byte = 0x0A ∧ fence.isPrefixOf s then s.dropWhile (· != 0x0A)
    else behindFencedBytes fence s

/-- What is left of bytes behind a text in brackets, from inside of `depth` of them, and how many
are still open. -/
def behindBracketsBytes : Nat → List UInt8 → Nat × List UInt8
  | 0, s => (0, s)
  | depth + 1, [] => (depth + 1, [])
  | depth + 1, byte :: s =>
    if byte = 0x5B then behindBracketsBytes (depth + 2) s
    else if byte = 0x5D then behindBracketsBytes depth s
    else if byte = 0x0A then (depth + 1, byte :: s)
    else behindBracketsBytes (depth + 1) s

/-- A block between fences in place. -/
def readFenced : Reader := fun buffer start =>
  let fence := buffer.slice start (start + 3)
  if buffer.startsWith start ['\x60', '\x60', '\x60'] ||
      buffer.startsWith start ['~', '~', '~'] then
    some ⟨.string, buffer.seek (behindFencedBytes (utf8 fence)) (buffer.line start)⟩
  else none

/-- A line of code in place. -/
def readIndented : Reader := fun buffer start =>
  if buffer.startsWith start [' ', ' ', ' ', ' '] || buffer.reads start '\t' then
    some ⟨.string, buffer.line start⟩
  else none

/-- A heading in place. -/
def readHeading : Reader := fun buffer start =>
  if buffer.reads start '#' then
    let hashes := buffer.skipWhile .hash start
    if buffer.readsAny hashes blanks then some ⟨.genericHeading, buffer.line start⟩
    else some ⟨.text, hashes⟩
  else none

/-- A line of a quotation in place. -/
def readQuotation : Reader := fun buffer start =>
  if buffer.reads start '>' then some ⟨.genericOutput, buffer.line start⟩ else none

/-- The marker of an item in an unordered list, in place. -/
def readBullet : Reader := fun buffer start =>
  if buffer.readsAny start listMarkers && buffer.readsAny (start + 1) blanks then
    some ⟨.punctuation, start + 1⟩
  else none

/-- The marker of an item in an ordered list, in place. -/
def readOrdinal : Reader := fun buffer start =>
  if buffer.readsAny start .digits then
    let point := buffer.skipWhile .digits start
    if buffer.reads point '.' && buffer.readsAny (point + 1) blanks then
      some ⟨.punctuation, point + 1⟩
    else some ⟨.text, point⟩
  else none

/-- A horizontal rule in place. -/
def readRule : Reader := fun buffer start =>
  let marker := buffer.current start
  let stop :=
    buffer.seek (·.dropWhile fun byte => byte == marker.toUInt8 || blanks.hasByte byte) start
  if buffer.readsAny start ruleMarkers && 3 ≤ (buffer.slice start stop).count marker &&
      (stop == buffer.length || buffer.reads stop '\n') then
    some ⟨.punctuation, stop⟩
  else none

/-- The readers at the start of a line. -/
def blockReaders : List Reader :=
  [readFenced, readIndented, readHeading, readQuotation, readBullet, readOrdinal, readRule]

/-- The offset behind the first closing character, or of the newline if that comes first. -/
def onLineStop (closing : Char) (buffer : Buffer) (offset : Nat) : Nat :=
  let stop := buffer.seek (·.dropWhile fun byte => byte != closing.toUInt8 && byte != 0x0A) offset
  if buffer.reads stop closing then stop + 1 else stop

/-- A span of code in place. -/
def readCodeSpan : Reader := fun buffer start =>
  if buffer.reads start '\x60' then some ⟨.string, onLineStop '\x60' buffer (start + 1)⟩ else none

/-- A run of emphasis markers in place. -/
def readEmphasis : Reader := fun buffer start =>
  if buffer.reads start '*' || buffer.reads start '_' then
    let marker := buffer.current start
    let stop := buffer.seek (·.dropWhile (· == marker.toUInt8)) start
    let kind : Kind :=
      match stop - start with
      | 1 => .genericEmph
      | 2 | 3 => .genericStrong
      | _ => .text
    some ⟨kind, stop⟩
  else none

/-- The offset behind a link, from behind its opening bracket. -/
def linkStop (buffer : Buffer) (offset : Nat) : Nat :=
  let (depth, rest) := behindBracketsBytes 1 (buffer.bytes.drop offset)
  let stop := buffer.length - rest.length
  if depth ≠ 0 then stop
  else if buffer.reads stop '(' then onLineStop ')' buffer (stop + 1)
  else if buffer.reads stop '[' then onLineStop ']' buffer (stop + 1)
  else stop

/-- A link in place. -/
def readLink : Reader := fun buffer start =>
  if buffer.reads start '[' then some ⟨.nameLabel, linkStop buffer (start + 1)⟩ else none

/-- The offset behind an image, from behind its opening bracket. -/
def imageStop (buffer : Buffer) (offset : Nat) : Nat :=
  let stop := buffer.seek (·.dropWhile fun byte => byte != 0x5D && byte != 0x0A) offset
  if !buffer.reads stop ']' then stop
  else if buffer.reads (stop + 1) '(' then onLineStop ')' buffer (stop + 2)
  else stop + 1

/-- An image in place. -/
def readImage : Reader := fun buffer start =>
  if buffer.startsWith start ['!', '['] then some ⟨.nameLabel, imageStop buffer (start + 2)⟩
  else none

/-- The readers anywhere in a line. -/
def inlineReaders : List Reader := [readCodeSpan, readEmphasis, readLink, readImage]

/-- A lexeme of text in place. -/
def textAt (lineStart : Bool) (buffer : Buffer) (start : Nat) : Found Bool :=
  let stop := buffer.skipUntil textStop start
  if stop = start then ⟨.text, buffer.next start, false⟩
  else if (buffer.slice start stop).all blanks.has then ⟨.whitespace, stop, lineStart⟩
  else ⟨.text, stop, false⟩

/-- The lexeme at an offset, and whether nothing but spaces and tabs is in front on the line behind
it. -/
def next (buffer : Buffer) (start : Nat) (lineStart : Bool) : Option (Found Bool) :=
  if buffer.length ≤ start then none
  else if buffer.reads start '\n' then some ⟨.whitespace, start + 1, true⟩
  else
    let readers := if lineStart then blockReaders ++ inlineReaders else inlineReaders
    match Reader.firstOf readers buffer start with
    | some span => some ⟨span.kind, span.stop, false⟩
    | none => some (textAt lineStart buffer start)

/-- The scanner of the language. -/
def scanner : Scanner Bool where
  start _ := true
  next := next

end Highlight.Markdown
