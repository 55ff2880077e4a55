import Highlight.Quoted
import Highlight.Reader
import Highlight.Rule

/-!
# String literals

A string literal is an affix of letters, which may be empty, and a quoted text. Which letters, which
quotes, and whether a text in triple quotes, a raw text in hashes or a raw text in backticks exist
is up to the language. Strings with embedded code are another matter: they are several tokens.
-/

namespace Highlight

/-- The string literals of a language. -/
structure StringSyntax where
  /-- A single quote opens a string, not a character. -/
  single : Bool := true
  /-- A double quote opens a string. -/
  double : Bool := true
  /-- Three quotes in a row open a text that may span lines. -/
  triple : Bool := false
  /-- Texts in quotes may span lines. -/
  multiline : Bool := false
  /-- A backslash escapes the character after it. -/
  escapes : Bool := true
  /-- Letters of an affix. -/
  affixes : List Char := []
  /-- Longest affix. -/
  maxAffix : Nat := 0
  /-- An affix with an `r` may be followed by hashes; it makes the text raw with or without. -/
  hashedRaw : Bool := false
  /-- Backticks enclose a raw text that may span lines. -/
  rawBacktick : Bool := false
  /-- Kind of a text in quotes. -/
  kind : Kind := .string
  /-- Kind of a text in triple quotes. -/
  tripleKind : Kind := .string
  /-- Kind of a text in backticks. -/
  backtickKind : Kind := .stringBacktick
  deriving DecidableEq, Repr

namespace StringSyntax

/-- The letters at the front of a text that could be an affix. The longest run is taken, and
nothing is given back. -/
def letters (syn : StringSyntax) (s : List Char) : List Char :=
  (s.take syn.maxAffix).takeWhile syn.affixes.contains

/-- Whether a character may open a literal behind an affix. -/
def opens (syn : StringSyntax) (affix : List Char) (c : Char) : Bool :=
  (syn.double && c == '\x22') || (syn.single && c == '\x27') ||
    (syn.hashedRaw && c == '#' && !affix.isEmpty)

/-- The affix of the literal at the front of a text: none if what could be one is not followed by
something that opens a literal. -/
def affix? (syn : StringSyntax) (s : List Char) : Option (List Char) :=
  let affix := syn.letters s
  match s.drop affix.length with
  | [] => none
  | c :: _ => if syn.opens affix c then some affix else none

/-- A raw text in hashes, from its first hash on. -/
def scanHashed (syn : StringSyntax) : Rule := fun s =>
  let hashes := (s.takeWhile (· == '#')).length
  match s.drop hashes with
  | [] => none
  | c :: body => if c = '\x22' then some ⟨syn.kind, Quoted.hashedRest hashes body⟩ else none

/-- A literal from its opening quote on, behind a given affix. -/
def scanQuoted (syn : StringSyntax) (affix : List Char) : Rule
  | [] => none
  | quote :: s =>
    let raw := affix.any fun c => c == 'r' || c == 'R'
    if quote = '#' then
      if raw then syn.scanHashed (quote :: s) else none
    else
      match if syn.triple then [quote, quote].isPrefixOf? s else none with
      | some body => some ⟨syn.tripleKind, Quoted.tripleRest quote body⟩
      | none =>
        let escapes := syn.escapes && !(raw && syn.hashedRaw)
        some ⟨syn.kind, Quoted.rest quote escapes syn.multiline s⟩

/-- A raw text in backticks. -/
def scanBacktick (syn : StringSyntax) : Rule
  | [] => none
  | c :: s =>
    if syn.rawBacktick ∧ c = '\x60' then
      some ⟨syn.backtickKind, Quoted.rest '\x60' false true s⟩
    else none

/-- A literal with its affix. -/
def scanAffixed (syn : StringSyntax) : Rule := fun s =>
  match syn.affix? s with
  | none => none
  | some affix => syn.scanQuoted affix (s.drop affix.length)

/-- A string literal. -/
def scan (syn : StringSyntax) : Rule :=
  Rule.firstOf [syn.scanBacktick, syn.scanAffixed]

/-- The offset behind the letters that could be an affix, of which `left` more are allowed. -/
def affixStop (syn : StringSyntax) (buffer : Buffer) : (left offset : Nat) → Nat
  | 0, offset => offset
  | left + 1, offset =>
    if syn.affixes.any (buffer.reads offset) then syn.affixStop buffer left (offset + 1) else offset

/-- The offset of what opens the literal at an offset, behind its affix. -/
def opening? (syn : StringSyntax) (buffer : Buffer) (start : Nat) : Option Nat :=
  let opening := syn.affixStop buffer syn.maxAffix start
  if (syn.double && buffer.reads opening '\x22') || (syn.single && buffer.reads opening '\x27') ||
      (syn.hashedRaw && buffer.reads opening '#' && start < opening) then
    some opening
  else none

/-- A raw text in hashes in place, from its first hash on. -/
def readHashed (syn : StringSyntax) : Reader := fun buffer opening =>
  let quote := buffer.skipWhile .hash opening
  if buffer.reads quote '\x22' then
    let closing := '\x22' :: List.replicate (quote - opening) '#'
    some ⟨syn.kind, buffer.behind closing (quote + 1)⟩
  else none

/-- A literal in place, from its opening quote on, behind a given affix. -/
def readQuoted (syn : StringSyntax) (affix : List Char) : Reader := fun buffer opening =>
  let raw := affix.any fun c => c == 'r' || c == 'R'
  let quote := buffer.current opening
  if quote = '#' then
    if raw then syn.readHashed buffer opening else none
  else if syn.triple && buffer.startsWith opening [quote, quote, quote] then
    some ⟨syn.tripleKind, buffer.tripleQuoted quote (opening + 3)⟩
  else
    let escapes := syn.escapes && !(raw && syn.hashedRaw)
    some ⟨syn.kind, buffer.quoted quote escapes syn.multiline (opening + 1)⟩

/-- A raw text in backticks in place. -/
def readBacktick (syn : StringSyntax) : Reader := fun buffer start =>
  if syn.rawBacktick && buffer.reads start '\x60' then
    some ⟨syn.backtickKind, buffer.quoted '\x60' false true (start + 1)⟩
  else none

/-- A literal with its affix in place. -/
def readAffixed (syn : StringSyntax) : Reader := fun buffer start =>
  (syn.opening? buffer start).bind fun opening =>
    syn.readQuoted (buffer.slice start opening) buffer opening

/-- A string literal in place. -/
def read (syn : StringSyntax) : Reader :=
  Reader.firstOf [syn.readBacktick, syn.readAffixed]

theorem scanHashed_suffix_tail {syn : StringSyntax} {c : Char} {s : List Char} {r : Match}
    (h : syn.scanHashed (c :: s) = some r) : r.rest <:+ s := by
  simp only [scanHashed] at h
  split at h
  · cases h
  · next d body hd =>
      split at h
      · cases h
        refine (Quoted.hashedRest_suffix ..).trans ?_
        have hs : d :: body <:+ c :: s := hd ▸ List.drop_suffix ..
        rcases List.suffix_cons_iff.1 hs with heq | hs
        · cases heq
          exact List.suffix_rfl
        · exact (List.suffix_cons d body).trans hs
      · cases h

theorem consumes_scanQuoted (syn : StringSyntax) (affix : List Char) :
    Rule.Consumes (syn.scanQuoted affix) := by
  intro c s r hr
  simp only [scanQuoted] at hr
  split at hr
  · split at hr
    · exact scanHashed_suffix_tail hr
    · cases hr
  · split at hr
    · next body hb =>
        cases hr
        split at hb
        · exact (Quoted.tripleRest_suffix ..).trans (suffix_of_isPrefixOf? hb)
        · cases hb
    · cases hr
      exact Quoted.rest_suffix ..

theorem consumes_scanBacktick (syn : StringSyntax) : Rule.Consumes syn.scanBacktick := by
  intro c s r hr
  simp only [scanBacktick] at hr
  split at hr
  · cases hr
    exact Quoted.rest_suffix ..
  · cases hr

theorem consumes_scanAffixed (syn : StringSyntax) : Rule.Consumes syn.scanAffixed := by
  intro c s r hr
  simp only [scanAffixed] at hr
  split at hr
  · cases hr
  · next affix _ =>
      cases hn : affix.length with
      | zero =>
          rw [hn, List.drop_zero] at hr
          exact consumes_scanQuoted syn affix c s r hr
      | succ n =>
          rw [hn, List.drop_succ_cons] at hr
          have hs := List.drop_suffix n s
          cases hd : s.drop n with
          | nil => simp [hd, scanQuoted] at hr
          | cons d s' =>
              rw [hd] at hr hs
              have htail := (List.suffix_cons d s').trans hs
              exact (consumes_scanQuoted syn affix d s' r hr).trans htail

theorem consumes_scan (syn : StringSyntax) : Rule.Consumes syn.scan := by
  apply Rule.consumes_firstOf
  intro rule hrule
  simp only [List.mem_cons, List.not_mem_nil, or_false] at hrule
  rcases hrule with rfl | rfl
  · exact consumes_scanBacktick syn
  · exact consumes_scanAffixed syn

end StringSyntax

/-- A character in single quotes, from behind its opening quote. -/
def scanCharacter (s : List Char) : Match :=
  ⟨.stringChar, Quoted.rest '\x27' true false s⟩

/-- A character in single quotes in place, from its opening quote on. -/
def readCharacter (buffer : Buffer) (opening : Nat) : Span :=
  ⟨.stringChar, buffer.quoted '\x27' true false (opening + 1)⟩

theorem scanCharacter_suffix (s : List Char) : (scanCharacter s).rest <:+ s :=
  Quoted.rest_suffix ..

end Highlight
