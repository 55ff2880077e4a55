import Highlight.Reader
import Highlight.Rule
import Highlight.Word

/-!
# Number literals

Decimal integers and floats, the radix literals `0x`, `0o` and `0b`, exponents, and suffixes. A
suffix counts only if the whole word behind the digits is one of those the language knows, so that
in `1if` the number is `1` and the word is `if`.

A point is part of the number if a digit follows it. With nothing of the sort behind it, it still
is, as in `1.`, unless what follows is a second point or a word: `1..2` is a range and `1.max` a
member.
-/

namespace Highlight

/-- The number literals of a language. -/
structure NumberSyntax where
  /-- `0x` literals. -/
  hex : Bool := true
  /-- `0o` literals. -/
  octal : Bool := true
  /-- `0b` literals. -/
  binary : Bool := true
  /-- Underscores between digits. -/
  underscores : Bool := true
  /-- Floats such as `.5`. -/
  leadingDot : Bool := true
  /-- Suffixes that keep the kind of any literal but a float. -/
  integerSuffixes : List String := []
  /-- Suffixes that make a decimal literal a float. -/
  floatSuffixes : List String := []
  /-- Suffixes that make a decimal literal imaginary. -/
  imaginarySuffixes : List String := []
  deriving DecidableEq, Repr

namespace NumberSyntax

/-- Whether a text begins with a decimal digit. -/
def atDigit : List Char → Bool
  | [] => false
  | c :: _ => AsciiSet.digits.has c

/-- Whether a character goes on a run of digits. -/
def isDigitOrGap (syn : NumberSyntax) (set : AsciiSet) (c : Char) : Bool :=
  set.has c || (syn.underscores && c == '_')

/-- The rest behind a run of digits. -/
def behindDigits (syn : NumberSyntax) (set : AsciiSet) (s : List Char) : List Char :=
  s.dropWhile (syn.isDigitOrGap set)

theorem behindDigits_suffix (syn : NumberSyntax) (set : AsciiSet) (s : List Char) :
    syn.behindDigits set s <:+ s :=
  List.dropWhile_suffix _

/-- A text without the sign at its front. -/
def behindSign : List Char → List Char
  | c :: s => if c = '+' ∨ c = '-' then s else c :: s
  | [] => []

theorem behindSign_suffix (s : List Char) : behindSign s <:+ s := by
  unfold behindSign
  split
  · split
    · exact List.suffix_cons ..
    · exact List.suffix_rfl
  · exact List.suffix_rfl

/-- The rest behind an exponent: `e`, an optional sign, and digits of which the first is no gap. -/
def behindExponent? (syn : NumberSyntax) : List Char → Option (List Char)
  | [] => none
  | e :: s =>
    if (e = 'e' ∨ e = 'E') ∧ atDigit (behindSign s) then
      some (syn.behindDigits .digits (behindSign s))
    else none

theorem behindExponent?_suffix {syn : NumberSyntax} {s rest : List Char}
    (h : syn.behindExponent? s = some rest) : rest <:+ s := by
  unfold behindExponent? at h
  split at h
  · cases h
  · next e s =>
      split at h
      · cases h
        exact (behindDigits_suffix ..).trans
          ((behindSign_suffix s).trans (List.suffix_cons e s))
      · cases h

/-- A literal of a kind together with the suffix behind it, if there is one that counts. -/
def withSuffix (syn : NumberSyntax) (kind : Kind) (s : List Char) : Match :=
  let rest := behindWord .identContinue s
  let suffix := String.ofList (wordOf .identContinue s)
  let decimal := kind = .numberInteger ∨ kind = .numberFloat
  if suffix = "" then ⟨kind, s⟩
  else if decimal ∧ suffix ∈ syn.imaginarySuffixes then ⟨.number, rest⟩
  else if decimal ∧ suffix ∈ syn.floatSuffixes then ⟨.numberFloat, rest⟩
  else if kind ≠ .numberFloat ∧ suffix ∈ syn.integerSuffixes then ⟨kind, rest⟩
  else ⟨kind, s⟩

theorem withSuffix_suffix (syn : NumberSyntax) (kind : Kind) (s : List Char) :
    (syn.withSuffix kind s).rest <:+ s := by
  have := behindWord_suffix .identContinue s
  unfold withSuffix
  dsimp only
  repeat' split
  all_goals first | exact this | exact List.suffix_rfl

/-- The radix a letter behind a zero stands for: its digits and the kind of the literal. -/
def radix? (syn : NumberSyntax) (letter : Char) : Option (AsciiSet × Kind) :=
  if syn.hex ∧ (letter = 'x' ∨ letter = 'X') then some (.hexDigits, .numberHex)
  else if syn.octal ∧ (letter = 'o' ∨ letter = 'O') then some (.octDigits, .numberOct)
  else if syn.binary ∧ (letter = 'b' ∨ letter = 'B') then some (.binDigits, .numberBin)
  else none

/-- The fraction behind the digits of a decimal literal: its kind, and what is left. -/
def fraction (syn : NumberSyntax) : List Char → Match
  | '.' :: s =>
    if atDigit s then ⟨.numberFloat, syn.behindDigits .digits s⟩
    else if s.head? ≠ some '.' ∧ ¬ atWord .identStart s then ⟨.numberFloat, s⟩
    else ⟨.numberInteger, '.' :: s⟩
  | s => ⟨.numberInteger, s⟩

theorem fraction_suffix (syn : NumberSyntax) (s : List Char) : (syn.fraction s).rest <:+ s := by
  unfold fraction
  split
  · next s =>
      split
      · exact (behindDigits_suffix ..).trans (List.suffix_cons ..)
      · split
        · exact List.suffix_cons ..
        · exact List.suffix_rfl
  · exact List.suffix_rfl

/-- A literal of a kind together with the exponent behind it, which makes it a float. -/
def withExponent (syn : NumberSyntax) (literal : Match) : Match :=
  match syn.behindExponent? literal.rest with
  | some rest => ⟨.numberFloat, rest⟩
  | none => literal

theorem withExponent_suffix (syn : NumberSyntax) (literal : Match) :
    (syn.withExponent literal).rest <:+ literal.rest := by
  unfold withExponent
  split
  · next h => exact behindExponent?_suffix h
  · exact List.suffix_rfl

/-- Exponent and suffix, whatever of them stands behind the digits of a decimal literal. -/
def ending (syn : NumberSyntax) (literal : Match) : Match :=
  let literal := syn.withExponent literal
  syn.withSuffix literal.kind literal.rest

theorem ending_suffix (syn : NumberSyntax) (literal : Match) :
    (syn.ending literal).rest <:+ literal.rest :=
  (withSuffix_suffix ..).trans (withExponent_suffix ..)

/-- A radix literal, from behind its zero. A letter that stands for a radix makes one even with no
digit behind it. -/
def scanRadix (syn : NumberSyntax) : List Char → Option Match
  | [] => none
  | letter :: s =>
    match syn.radix? letter with
    | none => none
    | some (set, kind) => some (syn.withSuffix kind (syn.behindDigits set s))

/-- A decimal literal, from behind its first digit. -/
def scanDecimal (syn : NumberSyntax) (s : List Char) : Match :=
  syn.ending (syn.fraction (syn.behindDigits .digits s))

/-- A number literal. -/
def scan (syn : NumberSyntax) : Rule
  | [] => none
  | c :: s =>
    if c = '.' then
      if syn.leadingDot ∧ atDigit s then
        some (syn.ending ⟨.numberFloat, syn.behindDigits .digits s⟩)
      else none
    else if AsciiSet.digits.has c then
      if c = '0' then (syn.scanRadix s).or (some (syn.scanDecimal s))
      else some (syn.scanDecimal s)
    else none

/-- The offset behind a run of digits. -/
def digitsStop (syn : NumberSyntax) (set : AsciiSet) (buffer : Buffer) : Nat → Nat :=
  buffer.seek (·.dropWhile fun byte => set.hasByte byte || (syn.underscores && byte == 0x5F))

/-- The offset behind the exponent at an offset, or that offset if there is none. -/
def exponentStop (syn : NumberSyntax) (buffer : Buffer) (offset : Nat) : Nat :=
  if buffer.reads offset 'e' || buffer.reads offset 'E' then
    let digits :=
      if buffer.reads (offset + 1) '+' || buffer.reads (offset + 1) '-' then offset + 2
      else offset + 1
    if buffer.readsAny digits .digits then syn.digitsStop .digits buffer digits else offset
  else offset

/-- A literal of a kind together with the exponent behind it, in place. -/
def readExponent (syn : NumberSyntax) (buffer : Buffer) (literal : Span) : Span :=
  let stop := syn.exponentStop buffer literal.stop
  if stop = literal.stop then literal else ⟨.numberFloat, stop⟩

/-- A literal of a kind together with the suffix behind it, in place. -/
def readSuffix (syn : NumberSyntax) (buffer : Buffer) (literal : Span) : Span :=
  let stop := buffer.word .identContinue literal.stop
  let suffix := String.ofList (buffer.slice literal.stop stop)
  let decimal := literal.kind = .numberInteger ∨ literal.kind = .numberFloat
  if stop = literal.stop then literal
  else if decimal ∧ suffix ∈ syn.imaginarySuffixes then ⟨.number, stop⟩
  else if decimal ∧ suffix ∈ syn.floatSuffixes then ⟨.numberFloat, stop⟩
  else if literal.kind ≠ .numberFloat ∧ suffix ∈ syn.integerSuffixes then ⟨literal.kind, stop⟩
  else literal

/-- The fraction of a decimal literal in place, from behind its digits. -/
def readFraction (syn : NumberSyntax) (buffer : Buffer) (offset : Nat) : Span :=
  if !buffer.reads offset '.' then ⟨.numberInteger, offset⟩
  else if buffer.readsAny (offset + 1) .digits then
    ⟨.numberFloat, syn.digitsStop .digits buffer (offset + 1)⟩
  else if buffer.reads (offset + 1) '.' || buffer.startsWord .identStart (offset + 1) then
    ⟨.numberInteger, offset⟩
  else ⟨.numberFloat, offset + 1⟩

/-- Exponent and suffix in place. -/
def readEnding (syn : NumberSyntax) (buffer : Buffer) (literal : Span) : Span :=
  syn.readSuffix buffer (syn.readExponent buffer literal)

/-- A number literal in place. -/
def read (syn : NumberSyntax) : Reader := fun buffer start =>
  if buffer.reads start '.' then
    if syn.leadingDot && buffer.readsAny (start + 1) .digits then
      some (syn.readEnding buffer ⟨.numberFloat, syn.digitsStop .digits buffer (start + 1)⟩)
    else none
  else if buffer.readsAny start .digits then
    match if buffer.reads start '0' then syn.radix? (buffer.current (start + 1)) else none with
    | some (set, kind) =>
      some (syn.readSuffix buffer ⟨kind, syn.digitsStop set buffer (start + 2)⟩)
    | none =>
      some (syn.readEnding buffer (syn.readFraction buffer (syn.digitsStop .digits buffer start)))
  else none

theorem scanRadix_suffix {syn : NumberSyntax} {s : List Char} {r : Match}
    (h : syn.scanRadix s = some r) : r.rest <:+ s := by
  unfold scanRadix at h
  split at h
  · cases h
  · split at h
    · cases h
    · cases h
      exact (withSuffix_suffix ..).trans
        ((behindDigits_suffix ..).trans (List.suffix_cons ..))

theorem scanDecimal_suffix (syn : NumberSyntax) (s : List Char) :
    (syn.scanDecimal s).rest <:+ s :=
  (ending_suffix ..).trans ((fraction_suffix ..).trans (behindDigits_suffix ..))

theorem consumes_scan (syn : NumberSyntax) : Rule.Consumes syn.scan := by
  intro c s r hr
  simp only [scan] at hr
  split at hr
  · split at hr
    · cases hr
      exact (ending_suffix ..).trans (behindDigits_suffix ..)
    · cases hr
  · split at hr
    · split at hr
      · rcases Option.or_eq_some_iff.1 hr with h | ⟨-, h⟩
        · exact scanRadix_suffix h
        · cases h
          exact scanDecimal_suffix syn s
      · cases hr
        exact scanDecimal_suffix syn s
    · cases hr

end NumberSyntax

end Highlight
