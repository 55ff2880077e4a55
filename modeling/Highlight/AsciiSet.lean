/-!
# Sets of ASCII characters

The characters that steer a scan are drawn from fixed classes of ASCII characters. A member takes
one byte in UTF-8, and that is what makes a class usable on bytes as well as on characters, so the
bound is part of the type: a set that could hold anything else cannot be built.
-/

namespace Highlight

/-- A class of ASCII characters. -/
structure AsciiSet where
  /-- Membership. -/
  has : Char → Bool
  /-- Members are ASCII. -/
  ascii : ∀ c, has c = true → c.toNat < 128

/-- Why a set of ASCII characters could not be built. -/
inductive AsciiSet.Refusal where
  /-- A member outside ASCII was asked for. -/
  | notAscii
  deriving DecidableEq, Repr

/-- Wording of a refusal. -/
def AsciiSet.Refusal.message : AsciiSet.Refusal → String
  | .notAscii => "ByteSet members must be ASCII"

namespace AsciiSet

/-- The set of the characters of a list. -/
def ofList (cs : List Char) (h : ∀ c ∈ cs, c.toNat < 128) : AsciiSet where
  has c := cs.contains c
  ascii c hc := h c (by simpa using hc)

/-- The set of the characters of a literal. -/
def chars (s : String) (h : (s.toList.all fun c => c.toNat < 128) = true := by decide) : AsciiSet :=
  ofList s.toList fun c hc => by simpa using List.all_eq_true.1 h c hc

/-- The set of the characters between two ends, both included. -/
def range (lo hi : Char) (h : hi.toNat < 128 := by decide) : AsciiSet where
  has c := lo.toNat ≤ c.toNat && c.toNat ≤ hi.toNat
  ascii c hc := by
    simp only [Bool.and_eq_true, decide_eq_true_eq] at hc
    omega

/-- The characters of either set. -/
def union (a b : AsciiSet) : AsciiSet where
  has c := a.has c || b.has c
  ascii c hc := by
    rcases Bool.or_eq_true_iff.1 hc with h | h
    · exact a.ascii c h
    · exact b.ascii c h

/-- The set of the characters of a text, refused when one of them is not ASCII. -/
def ofText (s : List Char) : Except Refusal AsciiSet :=
  if h : (s.all fun c => c.toNat < 128) = true then
    .ok (ofList s fun c hc => by simpa using List.all_eq_true.1 h c hc)
  else .error .notAscii

/-- The set of the codes between two bounds, both included. The upper bound is refused when it is
not ASCII, even where the bounds leave nothing between them. -/
def ofCodes (lo hi : Nat) : Except Refusal AsciiSet :=
  if h : hi < 128 then
    .ok {
      has := fun c => lo ≤ c.toNat && c.toNat ≤ hi
      ascii := fun c hc => by
        simp only [Bool.and_eq_true, decide_eq_true_eq] at hc
        omega }
  else
    .error .notAscii

/-- The members of a set by code. -/
def members (set : AsciiSet) : List Char :=
  ((List.range 128).map Char.ofNat).filter set.has

/-- `0-9` -/
def digits : AsciiSet := range '0' '9'

/-- `0-9a-fA-F` -/
def hexDigits : AsciiSet := (digits.union (range 'a' 'f')).union (range 'A' 'F')

/-- `0-7` -/
def octDigits : AsciiSet := range '0' '7'

/-- `01` -/
def binDigits : AsciiSet := chars "01"

/-- `a-zA-Z` -/
def letters : AsciiSet := (range 'a' 'z').union (range 'A' 'Z')

/-- What an identifier may start with. -/
def identStart : AsciiSet := letters.union (chars "_")

/-- What an identifier may go on with. -/
def identContinue : AsciiSet := identStart.union digits

/-- What an identifier may start with where `$` is a letter. -/
def identStartDollar : AsciiSet := identStart.union (chars "$")

/-- What an identifier may go on with where `$` is a letter. -/
def identContinueDollar : AsciiSet := identContinue.union (chars "$")

/-- The names of tags and attributes in markup. -/
def markupName : AsciiSet := (letters.union digits).union (chars "-_:.")

/-- `#` -/
def hash : AsciiSet := chars "#"

/-- Blanks and line ends, vertical tab and form feed included. -/
def whitespace : AsciiSet := chars " \t\n\r\x0b\x0c"

/-- Blanks that never end a line. -/
def horizontalSpace : AsciiSet := chars " \t\x0b\x0c"

/-- Lower-case hexadecimal digits of a number, without leading zeros. -/
def hexText (n : Nat) : List Char := Nat.toDigits 16 n

/-- A member as it stands in the written form of a set: quotes and backslashes are escaped, the
usual controls have letters, and every other control is given by its code. -/
def escape (c : Char) : List Char :=
  if c = '\t' then ['\x5c', 't']
  else if c = '\n' then ['\x5c', 'n']
  else if c = '\r' then ['\x5c', 'r']
  else if c = '\x22' then ['\x5c', '\x22']
  else if c = '\x5c' then ['\x5c', '\x5c']
  else if c = '\x00' then ['\x5c', '0']
  else if c.toNat < 32 ∨ c.toNat = 127 then
    ['\x5c', 'u', '\x7b'] ++ hexText c.toNat ++ ['\x7d']
  else [c]

/-- The written form of a set: its members by code, as one quoted text. -/
def describe (set : AsciiSet) : String :=
  "ByteSet(\"" ++ String.ofList (set.members.flatMap escape) ++ "\")"

end AsciiSet

end Highlight
