import Highlight.Language.JavaScript

/-!
# HTML

Markup is read in states: the content of elements, the name of a tag behind its `<`, and the inside
of a tag up to its `>`. The bodies of scripts and style sheets are no markup. The body of a script
is read by the lexer for scripts as a text of its own, up to the closing tag; that of a style sheet
is one piece of text.

Nothing in markup is an error.
-/

namespace Highlight.Html

/-- What the name of an attribute may start with. -/
def attributeStart : AsciiSet := AsciiSet.letters.union (.chars "_:@")

/-- What the name of an attribute may go on with. -/
def attributeName : AsciiSet := AsciiSet.markupName.union (.chars "@")

/-- What ends a value without quotes. -/
def valueEnd : AsciiSet := .chars " \t\n\r>\"\x27"

/-- What the name of an entity is made of. -/
def entityName : AsciiSet := AsciiSet.letters.union .digits

/-- An element whose body is no markup. -/
inductive RawText where
  | script
  | style
  deriving DecidableEq, Repr

namespace RawText

/-- Name of the element. -/
def tag : RawText → List Char
  | .script => "script".toList
  | .style => "style".toList

/-- The raw text element of a name, in either case of letters. -/
def ofTag? (name : List Char) : Option RawText :=
  if name.map Char.toLower = script.tag then some .script
  else if name.map Char.toLower = style.tag then some .style
  else none

/-- What ends the body of the element. -/
def closing (raw : RawText) : List Char := '<' :: '/' :: raw.tag

/-- The body at the front of a text: all of it, if nothing ends the body. -/
def body (raw : RawText) : List Char → List Char
  | [] => []
  | c :: s => if startsIgnoringCase raw.closing (c :: s) then [] else c :: raw.body s

end RawText

/-- Where a scan stands. -/
inductive State where
  /-- In the content of an element. -/
  | content
  /-- At the name of a tag. -/
  | tagName (closing : Bool)
  /-- Inside a tag. The raw text element it opens is kept up to its end, and so is whether the value
  of an attribute is next. -/
  | tag (raw : Option RawText) (valueNext : Bool)
  /-- In the body of a script, of which `body` is still to be read. -/
  | script (state : JavaScript.State) (body : List Char)
  /-- In front of the body of a style sheet. -/
  | style (body : List Char)
  deriving DecidableEq, Repr

/-- The state behind the tag that opens an element. -/
def State.ofBody (raw : Option RawText) (s : List Char) : State :=
  match raw with
  | none => .content
  | some .script => .script JavaScript.lexer.start (RawText.script.body s)
  | some .style => .style (RawText.style.body s)

/-- A comment, from its marker to the closing one. -/
def scanComment : Rule := fun s =>
  ("<!--".toList.isPrefixOf? s).map fun body => ⟨.commentMultiline, behind "-->".toList body⟩

/-- A document type or a processing instruction, up to the next `>`. -/
def scanDeclaration : Rule
  | [] => none
  | c :: s =>
    if c = '<' ∧ (startsIgnoringCase "!DOCTYPE".toList s ∨ s.head? = some '?') then
      some ⟨.commentPreproc, behind ['>'] s⟩
    else none

/-- A section of character data. -/
def scanCharacterData : Rule := fun s =>
  ("<![CDATA[".toList.isPrefixOf? s).map fun body => ⟨.string, behind "]]>".toList body⟩

/-- The rest behind the number sign and the radix of a numeric entity. -/
def behindRadix : List Char → List Char
  | '#' :: 'x' :: s | '#' :: 'X' :: s => s
  | '#' :: s => s
  | s => s

/-- The rest behind an entity, from behind its ampersand: letters and digits and a semicolon. -/
def behindEntity? (s : List Char) : Option (List Char) :=
  let name := behindRadix s
  let rest := name.dropWhile entityName.has
  if rest.length < name.length ∧ rest.head? = some ';' then some (rest.drop 1) else none

/-- An entity, or the ampersand alone. -/
def scanEntity : Rule
  | [] => none
  | c :: s =>
    if c ≠ '&' then none
    else
      match behindEntity? s with
      | some rest => some ⟨.nameEntity, rest⟩
      | none => some ⟨.text, s⟩

/-- The rules of content in front of that for tags. -/
def contentRules : List Rule := [scanComment, scanDeclaration, scanCharacterData, scanEntity]

/-- A text without the slash at its front, and whether there was one. -/
def behindSlash : List Char → Bool × List Char
  | [] => (false, [])
  | c :: s => if c = '/' then (true, s) else (false, c :: s)

/-- The `<` or `</` of a tag, from behind its `<`. Without a letter behind it, it is text. -/
def stepTagOpen (s : List Char) : Step State :=
  let (closing, rest) := behindSlash s
  if rest.head?.any AsciiSet.letters.has then ⟨.punctuation, rest, .tagName closing⟩
  else ⟨.text, rest, .content⟩

/-- A run of text between tags and entities. -/
def scanText (c : Char) (s : List Char) : Match :=
  let text := s.takeWhile fun c => c != '<' && c != '&'
  ⟨if (c :: text).all AsciiSet.whitespace.has then .whitespace else .text, s.drop text.length⟩

/-- A step in the content of an element. -/
def stepContent (c : Char) (s : List Char) : Step State :=
  match Rule.firstOf contentRules (c :: s) with
  | some found => ⟨found.kind, found.rest, .content⟩
  | none =>
    if c = '<' then stepTagOpen s
    else
      let found := scanText c s
      ⟨found.kind, found.rest, .content⟩

/-- The name of a tag. The name in an opening tag tells whether its body is markup. -/
def stepTagName (closing : Bool) (c : Char) (s : List Char) : Step State :=
  let raw := if closing then none else RawText.ofTag? (c :: wordOf .markupName s)
  ⟨.nameTag, behindWord .markupName s, .tag raw false⟩

/-- A value without quotes. Its first character may be anything. -/
def valueRest (s : List Char) : List Char :=
  s.dropWhile fun c => !valueEnd.has c

/-- A step inside a tag. A value may be set off from its equals sign by white space. -/
def stepTag (raw : Option RawText) (valueNext : Bool) (c : Char) (s : List Char) : Step State :=
  if AsciiSet.whitespace.has c then
    ⟨.whitespace, s.dropWhile AsciiSet.whitespace.has, .tag raw valueNext⟩
  else if c = '>' then ⟨.punctuation, s, .ofBody raw s⟩
  else if c = '/' ∧ s.head? = some '>' then ⟨.punctuation, s.drop 1, .content⟩
  else if c = '\x22' ∨ c = '\x27' then ⟨.string, behind [c] s, .tag raw false⟩
  else if ¬ valueNext ∧ attributeStart.has c then
    ⟨.nameAttribute, behindWord attributeName s, .tag raw false⟩
  else if ¬ valueNext ∧ c = '=' then ⟨.operator, s, .tag raw true⟩
  else ⟨.string, valueRest s, .tag raw false⟩

/-- A step in the body of a script, which is read as a text of its own. Behind it comes content. -/
def stepScript (state : JavaScript.State) (body : List Char) (c : Char) (s : List Char) :
    Step State :=
  match body with
  | [] => stepContent c s
  | b :: body =>
    let next := JavaScript.lexer.step state b body
    ⟨next.kind, s.drop (body.length - next.rest.length), .script next.state next.rest⟩

/-- The body of a style sheet. -/
def stepStyle (body : List Char) (c : Char) (s : List Char) : Step State :=
  match body with
  | [] => stepContent c s
  | _ :: body => ⟨.text, s.drop body.length, .content⟩

/-- The next lexeme and the state behind it. -/
def step : State → Char → List Char → Step State
  | .content => stepContent
  | .tagName closing => stepTagName closing
  | .tag raw valueNext => stepTag raw valueNext
  | .script state body => stepScript state body
  | .style body => stepStyle body

/-! ## Every step leaves an ending of the text

A lexer is given with the proof that each of its steps takes something. Rules and states are gone
through one by one; a step in a script takes as much of the text as the scanner for scripts takes of
the body. -/

theorem consumes_scanComment : Rule.Consumes scanComment := by
  intro c s r hr
  obtain ⟨body, hbody, rfl⟩ := Option.map_eq_some_iff.1 hr
  exact (behind_suffix ..).trans (suffix_tail_of_isPrefixOf? (by decide) hbody)

theorem consumes_scanDeclaration : Rule.Consumes scanDeclaration := by
  intro c s r hr
  simp only [scanDeclaration] at hr
  split at hr
  · cases hr
    exact behind_suffix ..
  · cases hr

theorem consumes_scanCharacterData : Rule.Consumes scanCharacterData := by
  intro c s r hr
  obtain ⟨body, hbody, rfl⟩ := Option.map_eq_some_iff.1 hr
  exact (behind_suffix ..).trans (suffix_tail_of_isPrefixOf? (by decide) hbody)

theorem behindRadix_suffix (s : List Char) : behindRadix s <:+ s := by
  unfold behindRadix
  split
  · exact ⟨['#', 'x'], rfl⟩
  · exact ⟨['#', 'X'], rfl⟩
  · exact ⟨['#'], rfl⟩
  · exact List.suffix_rfl

theorem behindEntity?_suffix {s rest : List Char} (h : behindEntity? s = some rest) :
    rest <:+ s := by
  simp only [behindEntity?] at h
  split at h
  · cases h
    exact (List.drop_suffix ..).trans ((List.dropWhile_suffix _).trans (behindRadix_suffix s))
  · cases h

theorem consumes_scanEntity : Rule.Consumes scanEntity := by
  intro c s r hr
  simp only [scanEntity] at hr
  repeat' split at hr
  · cases hr
  · next h =>
      cases hr
      exact behindEntity?_suffix h
  · cases hr
    exact List.suffix_rfl

theorem consumes_contentRules : ∀ rule ∈ contentRules, Rule.Consumes rule := by
  simp only [contentRules, List.forall_mem_cons, List.not_mem_nil, false_imp_iff, implies_true,
    and_true]
  exact ⟨consumes_scanComment, consumes_scanDeclaration, consumes_scanCharacterData,
    consumes_scanEntity⟩

theorem behindSlash_suffix (s : List Char) : (behindSlash s).2 <:+ s := by
  unfold behindSlash
  split
  · exact List.suffix_rfl
  · split
    · exact List.suffix_cons ..
    · exact List.suffix_rfl

theorem stepTagOpen_suffix (s : List Char) : (stepTagOpen s).rest <:+ s := by
  have := behindSlash_suffix s
  unfold stepTagOpen
  dsimp only
  split <;> exact this

theorem stepContent_suffix (c : Char) (s : List Char) : (stepContent c s).rest <:+ s := by
  unfold stepContent
  split
  · next found h => exact Rule.consumes_firstOf consumes_contentRules c s found h
  · split
    · exact stepTagOpen_suffix s
    · exact List.drop_suffix ..

theorem stepTag_suffix (raw : Option RawText) (valueNext : Bool) (c : Char) (s : List Char) :
    (stepTag raw valueNext c s).rest <:+ s := by
  unfold stepTag
  repeat' split
  · exact List.dropWhile_suffix _
  · exact List.suffix_rfl
  · exact List.drop_suffix ..
  · exact behind_suffix ..
  · exact behindWord_suffix ..
  · exact List.suffix_rfl
  · exact List.dropWhile_suffix _

theorem stepScript_suffix (state : JavaScript.State) (body : List Char) (c : Char)
    (s : List Char) : (stepScript state body c s).rest <:+ s := by
  unfold stepScript
  split
  · exact stepContent_suffix c s
  · exact List.drop_suffix ..

theorem stepStyle_suffix (body : List Char) (c : Char) (s : List Char) :
    (stepStyle body c s).rest <:+ s := by
  unfold stepStyle
  split
  · exact stepContent_suffix c s
  · exact List.drop_suffix ..

theorem step_suffix (state : State) (c : Char) (s : List Char) :
    (step state c s).rest <:+ s := by
  unfold step
  split
  · exact stepContent_suffix c s
  · exact behindWord_suffix ..
  · exact stepTag_suffix ..
  · exact stepScript_suffix ..
  · exact stepStyle_suffix ..

/-- The lexer of the language. -/
def lexer : Lexer State where
  start := .content
  step := step
  rest_suffix := step_suffix

/-! ## In place

In a buffer the same constructs are found by offsets, and by searches among the bytes. The body of a
script becomes a buffer of its own, which ends with it, and the scanner for scripts goes on in that
buffer at the offsets of the other.
-/

/-- Where a scan in place stands. -/
inductive Place where
  | content
  | tagName (closing : Bool)
  | tag (raw : Option RawText) (valueNext : Bool)
  | script (body : Buffer) (place : JavaScript.Place)
  /-- In front of the body of a style sheet, which ends at `stop`. -/
  | style (stop : Nat)

/-- What is left of bytes from the first closing tag on. -/
def fromClosingBytes (closing : List UInt8) : List UInt8 → List UInt8
  | [] => []
  | byte :: s =>
    if ByteScan.startsIgnoringCase closing (byte :: s) then byte :: s
    else fromClosingBytes closing s

/-- The offset where the body of an element ends that begins at an offset. -/
def RawText.bodyStop (raw : RawText) (buffer : Buffer) : Nat → Nat :=
  buffer.seek (fromClosingBytes (utf8 raw.closing))

/-- Where a scan stands behind the tag that opens an element. -/
def Place.ofBody (raw : Option RawText) (buffer : Buffer) (start : Nat) : Place :=
  match raw with
  | none => .content
  | some .script =>
    .script (buffer.upTo (RawText.script.bodyStop buffer start)) (JavaScript.scanner.start start)
  | some .style => .style (RawText.style.bodyStop buffer start)

/-- A comment in place. -/
def readComment : Reader := fun buffer start =>
  if buffer.startsWith start "<!--".toList then
    some ⟨.commentMultiline, buffer.behind "-->".toList (start + 4)⟩
  else none

/-- A document type or a processing instruction in place. -/
def readDeclaration : Reader := fun buffer start =>
  if buffer.startsIgnoringCase start "<!DOCTYPE".toList || buffer.startsWith start ['<', '?'] then
    some ⟨.commentPreproc, buffer.behind ['>'] start⟩
  else none

/-- A section of character data in place. -/
def readCharacterData : Reader := fun buffer start =>
  if buffer.startsWith start "<![CDATA[".toList then
    some ⟨.string, buffer.behind "]]>".toList (start + 9)⟩
  else none

/-- The offset behind the entity whose ampersand is at an offset, or behind the ampersand alone. -/
def entityStop (buffer : Buffer) (start : Nat) : Nat :=
  let name :=
    if !buffer.reads (start + 1) '#' then start + 1
    else if buffer.reads (start + 2) 'x' || buffer.reads (start + 2) 'X' then start + 3
    else start + 2
  let stop := buffer.skipWhile entityName name
  if name < stop ∧ buffer.reads stop ';' then stop + 1 else start + 1

/-- An entity in place, or the ampersand alone. -/
def readEntity : Reader := fun buffer start =>
  if buffer.reads start '&' then
    let stop := entityStop buffer start
    some ⟨if start + 1 < stop then .nameEntity else .text, stop⟩
  else none

/-- The readers of content in front of that for tags. -/
def contentReaders : List Reader := [readComment, readDeclaration, readCharacterData, readEntity]

/-- The `<` or `</` of a tag in place. -/
def tagOpenAt (buffer : Buffer) (start : Nat) : Found Place :=
  let closing := buffer.reads (start + 1) '/'
  let name := if closing then start + 2 else start + 1
  if buffer.readsAny name .letters then ⟨.punctuation, name, .tagName closing⟩
  else ⟨.text, name, .content⟩

/-- A run of text between tags and entities, in place. -/
def textAt (buffer : Buffer) (start : Nat) : Span :=
  let stop := buffer.seek (·.dropWhile fun byte => byte != 0x3C && byte != 0x26) start
  ⟨if (buffer.slice start stop).all AsciiSet.whitespace.has then .whitespace else .text, stop⟩

/-- A lexeme of content in place. -/
def contentAt (buffer : Buffer) (start : Nat) : Found Place :=
  match Reader.firstOf contentReaders buffer start with
  | some span => ⟨span.kind, span.stop, .content⟩
  | none =>
    if buffer.reads start '<' then tagOpenAt buffer start
    else
      let span := textAt buffer start
      ⟨span.kind, span.stop, .content⟩

/-- The name of a tag in place. -/
def tagNameAt (closing : Bool) (buffer : Buffer) (start : Nat) : Found Place :=
  let stop := buffer.word .markupName start
  let raw := if closing then none else RawText.ofTag? (buffer.slice start stop)
  ⟨.nameTag, stop, .tag raw false⟩

/-- A lexeme inside a tag, in place. -/
def tagAt (raw : Option RawText) (valueNext : Bool) (buffer : Buffer) (start : Nat) : Found Place :=
  let quote := buffer.current start
  if buffer.readsAny start .whitespace then
    ⟨.whitespace, buffer.skipWhile .whitespace start, .tag raw valueNext⟩
  else if buffer.reads start '>' then ⟨.punctuation, start + 1, .ofBody raw buffer (start + 1)⟩
  else if buffer.startsWith start ['/', '>'] then ⟨.punctuation, start + 2, .content⟩
  else if quote = '\x22' ∨ quote = '\x27' then
    ⟨.string, buffer.behind [quote] (start + 1), .tag raw false⟩
  else if ¬ valueNext ∧ buffer.readsAny start attributeStart then
    ⟨.nameAttribute, buffer.word attributeName start, .tag raw false⟩
  else if ¬ valueNext ∧ buffer.reads start '=' then ⟨.operator, start + 1, .tag raw true⟩
  else ⟨.string, buffer.skipUntil valueEnd (buffer.next start), .tag raw false⟩

/-- The lexeme at an offset that is not in the body of a script. -/
def markupAt? (buffer : Buffer) (start : Nat) (place : Place) : Option (Found Place) :=
  if buffer.length ≤ start then none
  else
    match place with
    | .tagName closing => some (tagNameAt closing buffer start)
    | .tag raw valueNext => some (tagAt raw valueNext buffer start)
    | .style stop =>
      if stop = start then some (contentAt buffer start) else some ⟨.text, stop, .content⟩
    | _ => some (contentAt buffer start)

/-- The lexeme at an offset and the state behind it. Where the scanner for scripts has none to give,
content comes next. -/
def next (buffer : Buffer) (start : Nat) : Place → Option (Found Place)
  | .script body place =>
    match JavaScript.scanner.next body start place with
    | some found => some ⟨found.kind, found.stop, .script body found.state⟩
    | none => markupAt? buffer start .content
  | place => markupAt? buffer start place

/-- The scanner of the language. -/
def scanner : Scanner Place where
  start _ := .content
  next := next

end Highlight.Html
