import Highlight.Jump
import Highlight.Reader
import Highlight.Rule

/-!
# Strings with embedded code

A string with embedded code is several tokens: runs of literal text, the delimiters of its fields,
and the tokens of the code inside them, which the language scans as it does anywhere. Strings nest
in fields and fields in strings, so where a scan stands is a stack of frames, innermost first:

* in literal text, up to the closing quote or the next field;
* in the code of a field, with a count of the brackets open in it;
* in a format specification, which follows the code of a field and may hold fields of its own.

There are two families of fields. In the one a field opens with a dollar sign and a brace; in the
other with a brace alone, a doubled brace is text, and a colon outside brackets starts a format
specification. A string on a single line cannot be continued on the next one, and neither can a
field of it.
-/

namespace Highlight

/-- The delimiters of a string with embedded code. -/
structure TemplateSyntax where
  quote : Char
  /-- Three quotes in a row open and close the string. -/
  triple : Bool := false
  /-- A field opens with a dollar sign in front of its brace. -/
  dollar : Bool := false
  /-- Literal text may span lines even between single quotes. -/
  multiline : Bool := false
  /-- Kind of the literal text. -/
  kind : Kind
  deriving DecidableEq, Repr

namespace TemplateSyntax

/-- Whether a newline ends the string. -/
def singleLine (style : TemplateSyntax) : Bool :=
  !(style.multiline || style.triple)

/-- The character that every field opens with. -/
def opener (style : TemplateSyntax) : Char :=
  if style.dollar then '$' else '\x7b'

/-- The rest behind the delimiter that opens a field at the front of a text. -/
def opener? (style : TemplateSyntax) : List Char → Option (List Char)
  | [] => none
  | c :: s =>
    if c ≠ style.opener then none
    else if style.dollar then ['\x7b'].isPrefixOf? s
    else if s.head? = some '\x7b' then none
    else some s

end TemplateSyntax

/-- Why a run of literal text ends. -/
inductive TextEnd where
  /-- A field opens; its delimiter is left in the rest. -/
  | field
  /-- The closing quote is behind it. -/
  | closed
  /-- A newline that may not stand in the string is next, or nothing is. -/
  | unterminated
  deriving DecidableEq, Repr

namespace TemplateSyntax

/-- Whether a scan of literal text looks at a character at all. -/
def stops (style : TemplateSyntax) (c : Char) : Bool :=
  c == style.quote || c == '\x5c' || c == style.opener || (style.singleLine && c == '\n')

/-- The scan of a run of literal text. -/
def textScan (style : TemplateSyntax) : JumpScan Unit (TextEnd × List Char) where
  looksAt := style.stops
  look _ c s :=
    if style.singleLine ∧ c = '\n' then .inl (.unterminated, c :: s)
    else if c = '\x5c' then .inr ((), s.drop 1)
    else if c = style.quote then
      if style.triple then
        match [style.quote, style.quote].isPrefixOf? s with
        | some behind => .inl (.closed, behind)
        | none => .inr ((), s)
      else .inl (.closed, s)
    else if style.dollar then
      if s.head? = some '\x7b' then .inl (.field, c :: s) else .inr ((), s)
    else if s.head? = some '\x7b' then .inr ((), s.drop 1)
    else .inl (.field, c :: s)
  exhausted := (.unterminated, [])
  look_suffix _ c s next h := by
    repeat' split at h
    all_goals cases h
    all_goals first | exact List.suffix_rfl | exact List.drop_suffix ..

/-- The rest behind a run of literal text, and why the run ends there. -/
def text (style : TemplateSyntax) (s : List Char) : TextEnd × List Char :=
  style.textScan.run () s

theorem text_nil (style : TemplateSyntax) : style.text [] = (.unterminated, []) :=
  JumpScan.run_nil ..

theorem text_cons_of_plain {style : TemplateSyntax} {c : Char} {s : List Char}
    (h : style.stops c = false) : style.text (c :: s) = style.text s :=
  JumpScan.run_cons_of_plain h

theorem text_cons_of_stops {style : TemplateSyntax} {c : Char} {s : List Char}
    (h : style.stops c = true) :
    style.text (c :: s) =
      (style.textScan.look () c s).elim id fun next => style.text next.2 :=
  JumpScan.run_cons_of_looksAt h

theorem text_suffix (style : TemplateSyntax) (s : List Char) : (style.text s).2 <:+ s := by
  refine JumpScan.run_suffix Prod.snd rfl (fun _ c s answer h => ?_) () s
  simp only [textScan] at h
  repeat' split at h
  · cases h
    exact List.suffix_rfl
  · cases h
  · next hbehind =>
      cases h
      exact (suffix_of_isPrefixOf? hbehind).trans (List.suffix_cons c s)
  · cases h
  · cases h
    exact List.suffix_cons c s
  · cases h
    exact List.suffix_rfl
  · cases h
  · cases h
  · cases h
    exact List.suffix_rfl

/-- Whether a character ends a run of the text of a format specification. -/
def endsSpec (style : TemplateSyntax) (c : Char) : Bool :=
  c == '\x7b' || c == '\x7d' || c == style.quote || (style.singleLine && c == '\n')

/-- The rest behind a run of the text of a format specification. -/
def specRest (style : TemplateSyntax) (s : List Char) : List Char :=
  s.dropWhile fun c => !style.endsSpec c

/-- The offset that text of a string may not get past on its line: that of the next newline where a
newline ends the string, and the end of the buffer elsewhere. -/
def lineLimit (style : TemplateSyntax) (buffer : Buffer) (offset : Nat) : Nat :=
  if style.singleLine then buffer.line offset else buffer.length

/-- Whether a byte may mean something in literal text. -/
def marks (style : TemplateSyntax) (byte : UInt8) : Bool :=
  byte == style.quote.toUInt8 || byte == 0x5C || byte == style.opener.toUInt8

theorem le_lineLimit {style : TemplateSyntax} {buffer : Buffer} {offset : Nat}
    (h : offset ≤ buffer.length) : offset ≤ style.lineLimit buffer offset := by
  unfold lineLimit
  split
  · exact Buffer.le_seek (fun s => (List.dropWhile_suffix _).length_le) h
  · exact h

/-- Why literal text ends that goes on at an offset, and where. Only the bytes in front of the limit
are looked through, and so an escaped newline, which is at the limit, moves it on to the end of the
next line. -/
def textLoop (style : TemplateSyntax) (buffer : Buffer) (limit offset : Nat) : TextEnd × Nat :=
  match _hfind : buffer.find? style.marks offset limit with
  | none => (.unterminated, limit)
  | some i =>
    if buffer.reads i '\x5c' then
      if buffer.length ≤ i + 1 then (.unterminated, buffer.length)
      else
        let limit := if i + 1 = limit then style.lineLimit buffer (i + 2) else limit
        style.textLoop buffer limit (min (buffer.next (i + 1)) limit)
    else if buffer.reads i style.quote then
      if !style.triple then (.closed, i + 1)
      else if buffer.startsWith i [style.quote, style.quote, style.quote] then (.closed, i + 3)
      else style.textLoop buffer limit (min (i + 1) limit)
    else if buffer.reads (i + 1) '\x7b' then
      if style.dollar then (.field, i) else style.textLoop buffer limit (min (i + 2) limit)
    else if style.dollar then style.textLoop buffer limit (min (i + 1) limit)
    else (.field, i)
termination_by buffer.length - offset
decreasing_by
  all_goals obtain ⟨hstart, hstop, hlength⟩ := Buffer.find?_bounds _hfind
  · have hnext := @Buffer.lt_next buffer (i + 1) (by omega)
    split
    · have hlimit := @le_lineLimit style buffer (i + 2) (by omega)
      omega
    · omega
  all_goals omega

/-- Why a run of literal text ends that begins at an offset, and where. -/
def textStop (style : TemplateSyntax) (buffer : Buffer) (start : Nat) : TextEnd × Nat :=
  style.textLoop buffer (style.lineLimit buffer start) start

/-- The offset behind a run of the text of a format specification. -/
def specStop (style : TemplateSyntax) (buffer : Buffer) (start : Nat) : Nat :=
  let limit := style.lineLimit buffer start
  let ends (byte : UInt8) := byte == 0x7B || byte == 0x7D || byte == style.quote.toUInt8
  (buffer.find? ends start limit).getD limit

/-- The offset behind the delimiter that opens a field at an offset. -/
def openerStop? (style : TemplateSyntax) (buffer : Buffer) (start : Nat) : Option Nat :=
  if style.dollar then
    if buffer.reads start '$' && buffer.reads (start + 1) '\x7b' then some (start + 2) else none
  else if buffer.reads start '\x7b' && !buffer.reads (start + 1) '\x7b' then some (start + 1)
  else none

theorem specRest_suffix (style : TemplateSyntax) (s : List Char) : style.specRest s <:+ s :=
  List.dropWhile_suffix _

end TemplateSyntax

/-- Where a scan stands in one string with embedded code. -/
inductive Frame where
  /-- In literal text. -/
  | text (style : TemplateSyntax)
  /-- In the code of a field, inside of `depth` brackets. -/
  | field (style : TemplateSyntax) (depth : Nat)
  /-- In a format specification. -/
  | spec (style : TemplateSyntax)
  deriving DecidableEq, Repr

namespace Frame

/-- The string the frame belongs to. -/
def style : Frame → TemplateSyntax
  | .text style | .field style _ | .spec style => style

/-- Whether the language scans here. -/
def isCode : Frame → Bool
  | .field .. => true
  | _ => false

/-- A run of text of a frame: nothing if there is none before the frame ends. Otherwise the run, and
the frames that stand in place of the frame behind it. -/
def run (kind : Kind) (after : List Frame) (s rest : List Char) : Option (Match × List Frame) :=
  if rest.length < s.length then some (⟨kind, rest⟩, after) else none

/-- The next piece of a string that is not code, and the frames that stand in place of the frame
behind it: nothing if the frame ends here without one. -/
def scan : Frame → List Char → Option (Match × List Frame)
  | .text style, s =>
    match style.opener? s with
    | some rest => some (⟨.stringInterpol, rest⟩, [.field style 0, .text style])
    | none =>
      let (stop, rest) := style.text s
      run style.kind (if stop = .field then [.text style] else []) s rest
  | .spec style, s =>
    match s with
    | '\x7b' :: rest => some (⟨.stringInterpol, rest⟩, [.field style 0, .spec style])
    | '\x7d' :: rest => some (⟨.stringInterpol, rest⟩, [])
    | s => run style.kind [.spec style] s (style.specRest s)
  | .field .., _ => none

/-- A run of text of a frame in place. -/
def readRun (kind : Kind) (after : List Frame) (start stop : Nat) : Option (Span × List Frame) :=
  if start < stop then some (⟨kind, stop⟩, after) else none

/-- The next piece of a string that is not code, in place. -/
def read (buffer : Buffer) (start : Nat) : Frame → Option (Span × List Frame)
  | .text style =>
    match style.openerStop? buffer start with
    | some stop => some (⟨.stringInterpol, stop⟩, [.field style 0, .text style])
    | none =>
      let (ending, stop) := style.textStop buffer start
      readRun style.kind (if ending = .field then [.text style] else []) start stop
  | .spec style =>
    if buffer.reads start '\x7b' then
      some (⟨.stringInterpol, start + 1⟩, [.field style 0, .spec style])
    else if buffer.reads start '\x7d' then some (⟨.stringInterpol, start + 1⟩, [])
    else readRun style.kind [.spec style] start (style.specStop buffer start)
  | .field .. => none

theorem suffix_of_run {kind : Kind} {after : List Frame} {c : Char} {s rest : List Char}
    {r : Match × List Frame} (hs : rest <:+ c :: s)
    (h : run kind after (c :: s) rest = some r) : r.1.rest <:+ s := by
  unfold run at h
  split at h
  · next hlt =>
      cases h
      rcases List.suffix_cons_iff.1 hs with heq | hs
      · rw [heq] at hlt
        exact absurd hlt (Nat.lt_irrefl _)
      · exact hs
  · cases h

theorem scan_suffix {frame : Frame} {c : Char} {s : List Char} {r : Match × List Frame}
    (h : frame.scan (c :: s) = some r) : r.1.rest <:+ s := by
  unfold scan at h
  split at h
  · next style s' =>
      split at h
      · next rest ho =>
          cases h
          simp only [TemplateSyntax.opener?] at ho
          repeat' split at ho
          · cases ho
          · exact suffix_of_isPrefixOf? ho
          · cases ho
          · cases ho
            exact List.suffix_rfl
      · exact suffix_of_run (TemplateSyntax.text_suffix ..) h
  · next style s' =>
      split at h
      · next rest heq =>
          cases h
          cases heq
          exact List.suffix_rfl
      · next rest heq =>
          cases h
          cases heq
          exact List.suffix_rfl
      · exact suffix_of_run (TemplateSyntax.specRest_suffix ..) h
  · cases h

end Frame

/-- Where a scan stands in the strings that are open around it, innermost frame first. -/
abbrev Nesting := List Frame

namespace Nesting

/-- Whether the language scans here: in the code of a field, or outside of any string. -/
def inCode : Nesting → Bool
  | [] => true
  | frame :: _ => frame.isCode

/-- Enter a string, from behind its opening quote. The first run of its literal text comes with the
opening quote; a string that ends with it leaves no frame. -/
def enter (nesting : Nesting) (style : TemplateSyntax) (body : List Char) : Match × Nesting :=
  let (stop, rest) := style.text body
  (⟨style.kind, rest⟩, if stop = .field then .text style :: nesting else nesting)

/-- The next piece of a string that is not code. Without one the innermost frame has ended, and it
is left. In code there is nothing to do. -/
def literal : Nesting → List Char → Option Match × Nesting
  | [], _ => (none, [])
  | frame :: outer, s =>
    if frame.isCode then (none, frame :: outer)
    else
      match frame.scan s with
      | some (found, frames) => (some found, frames ++ outer)
      | none => (none, outer)

/-- Leave every frame that ends here, up to the next piece of a string or to code. -/
def settle : Nesting → List Char → Option Match × Nesting
  | [], _ => (none, [])
  | frame :: outer, s =>
    if frame.isCode then (none, frame :: outer)
    else
      match frame.scan s with
      | some (found, frames) => (some found, frames ++ outer)
      | none => settle outer s

/-- Leave everything that may not span lines. -/
def leaveLine (nesting : Nesting) : Nesting :=
  nesting.dropWhile fun frame => frame.style.singleLine

/-- The blanks among which a newline is looked for in the code of a field. -/
def blanks : AsciiSet := .chars " \t\n\x0c\r"

/-- Whether the blanks at the front of a text take the scan to another line. -/
def crossesLine (s : List Char) : Bool :=
  (s.takeWhile blanks.has).contains '\n'

/-- Look at a character of code before the language does. It may close the field or start a format
specification, and then it is a token. Otherwise at most the brackets are counted, and a newline
that the string cannot span ends what it has to. -/
def delimiter : Nesting → List Char → Option Match × Nesting
  | .field style depth :: outer, c :: s =>
    match c with
    | '\x7b' | '(' | '[' => (none, .field style (depth + 1) :: outer)
    | ')' | ']' => (none, .field style (depth - 1) :: outer)
    | '\x7d' =>
      if 0 < depth then (none, .field style (depth - 1) :: outer)
      else (some ⟨.stringInterpol, s⟩, outer)
    | ':' =>
      if depth = 0 ∧ ¬ style.dollar then (some ⟨.stringInterpol, s⟩, .spec style :: outer)
      else (none, .field style depth :: outer)
    | ' ' | '\t' | '\r' | '\n' =>
      if style.singleLine ∧ crossesLine (c :: s) then
        (none, leaveLine (.field style depth :: outer))
      else (none, .field style depth :: outer)
    | _ => (none, .field style depth :: outer)
  | nesting, _ => (none, nesting)

/-- Enter a string in place: from behind its opening quotes, which are at an offset. -/
def enterAt (nesting : Nesting) (style : TemplateSyntax) (buffer : Buffer) (body : Nat) :
    Span × Nesting :=
  let (ending, stop) := style.textStop buffer body
  (⟨style.kind, stop⟩, if ending = .field then .text style :: nesting else nesting)

/-- Leave every frame that ends at an offset, up to the next piece of a string or to code. -/
def settleAt (buffer : Buffer) (start : Nat) : Nesting → Option Span × Nesting
  | [] => (none, [])
  | frame :: outer =>
    if frame.isCode then (none, frame :: outer)
    else
      match frame.read buffer start with
      | some (span, frames) => (some span, frames ++ outer)
      | none => settleAt buffer start outer

/-- Whether the blanks at an offset take the scan to another line. -/
def crossesLineAt (buffer : Buffer) (start : Nat) : Bool :=
  ((buffer.bytes.drop start).takeWhile blanks.hasByte).contains 0x0A

/-- Look at a character of code at an offset before the language does. -/
def delimiterAt (buffer : Buffer) (start : Nat) : Nesting → Option Span × Nesting
  | .field style depth :: outer =>
    match buffer.current start with
    | '\x7b' | '(' | '[' => (none, .field style (depth + 1) :: outer)
    | ')' | ']' => (none, .field style (depth - 1) :: outer)
    | '\x7d' =>
      if 0 < depth then (none, .field style (depth - 1) :: outer)
      else (some ⟨.stringInterpol, start + 1⟩, outer)
    | ':' =>
      if depth = 0 ∧ ¬ style.dollar then (some ⟨.stringInterpol, start + 1⟩, .spec style :: outer)
      else (none, .field style depth :: outer)
    | ' ' | '\t' | '\r' | '\n' =>
      if style.singleLine ∧ crossesLineAt buffer start then
        (none, leaveLine (.field style depth :: outer))
      else (none, .field style depth :: outer)
    | _ => (none, .field style depth :: outer)
  | nesting => (none, nesting)

theorem settle_suffix {nesting : Nesting} {c : Char} {s : List Char} {r : Match}
    {nesting' : Nesting} (h : nesting.settle (c :: s) = (some r, nesting')) : r.rest <:+ s := by
  induction nesting with
  | nil => simp [settle] at h
  | cons frame outer ih =>
      simp only [settle] at h
      split at h
      · cases h
      · split at h
        · next found frames hs =>
            cases h
            exact Frame.scan_suffix hs
        · exact ih h

theorem enter_suffix (nesting : Nesting) (style : TemplateSyntax) (body : List Char) :
    (nesting.enter style body).1.rest <:+ body :=
  TemplateSyntax.text_suffix style body

theorem delimiter_suffix {nesting : Nesting} {c : Char} {s : List Char} {r : Match}
    {nesting' : Nesting} (h : nesting.delimiter (c :: s) = (some r, nesting')) :
    r.rest <:+ s := by
  unfold delimiter at h
  split at h
  · next style depth outer d s' heq =>
      cases heq
      repeat' split at h
      all_goals cases h
      all_goals exact List.suffix_rfl
  · cases h

end Nesting

end Highlight
