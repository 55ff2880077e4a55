import Highlight.ByteScan
import Highlight.Range

/-!
# Buffers

A range of a text is read where it stands. What reads it is given a buffer, which holds the text up
to the end of the range, and an offset into the buffer; it answers with an offset again. It goes by
the bytes of the buffer and could look at any of them, those in front of the range not excepted.

A buffer has its bytes beside its text. The text is what is cut out of it, and the bytes are what is
read.
-/

namespace Highlight

/-- A text together with its bytes. -/
structure Buffer where
  text : List Char
  bytes : List UInt8
  bytes_eq : bytes = utf8 text

namespace Buffer

/-- The buffer of a text. -/
def ofText (text : List Char) : Buffer := ⟨text, utf8 text, rfl⟩

/-- Number of bytes. -/
def length (buffer : Buffer) : Nat := buffer.bytes.length

/-- The part of a buffer in front of an offset. -/
def upTo (buffer : Buffer) (stop : Nat) : Buffer := ofText (takeBytes stop buffer.text)

/-- The text between two offsets. -/
def slice (buffer : Buffer) (start stop : Nat) : List Char :=
  (ByteRange.mk start stop).slice buffer.text

/-- Whether the byte at an offset is that of an ASCII character. -/
def reads (buffer : Buffer) (offset : Nat) (c : Char) : Bool :=
  buffer.bytes[offset]? == some c.toUInt8

/-- Whether the byte at an offset is of a class. -/
def readsAny (buffer : Buffer) (offset : Nat) (set : AsciiSet) : Bool :=
  buffer.bytes[offset]?.any set.hasByte

/-- The byte at an offset as a character, and NUL behind the end. -/
def current (buffer : Buffer) (offset : Nat) : Char :=
  Char.ofUInt8 (buffer.bytes[offset]?.getD 0)

/-- Whether a marker is at an offset. -/
def startsWith (buffer : Buffer) (offset : Nat) (marker : List Char) : Bool :=
  (utf8 marker).isPrefixOf (buffer.bytes.drop offset)

/-- Whether a marker is at an offset, where ASCII letters match either case. -/
def startsIgnoringCase (buffer : Buffer) (offset : Nat) (marker : List Char) : Bool :=
  ByteScan.startsIgnoringCase (utf8 marker) (buffer.bytes.drop offset)

/-- The first offset between two at which there is a byte of some kind. -/
def find? (buffer : Buffer) (p : UInt8 → Bool) (start stop : Nat) : Option Nat :=
  (((buffer.bytes.take stop).drop start).findIdx? p).map (start + ·)

/-- The offset of what a search from an offset on leaves. -/
def seek (buffer : Buffer) (search : List UInt8 → List UInt8) (offset : Nat) : Nat :=
  buffer.length - (search (buffer.bytes.drop offset)).length

/-- The offset behind the character at an offset. -/
def next (buffer : Buffer) : Nat → Nat :=
  buffer.seek ByteScan.character

/-- The offset of the next byte that is not of a class. -/
def skipWhile (buffer : Buffer) (set : AsciiSet) : Nat → Nat :=
  buffer.seek (·.dropWhile set.hasByte)

/-- The offset of the next byte of a class. -/
def skipUntil (buffer : Buffer) (set : AsciiSet) : Nat → Nat :=
  buffer.seek (·.dropWhile (!set.hasByte ·))

/-- The offset of the next newline. -/
def line (buffer : Buffer) : Nat → Nat :=
  buffer.seek (·.dropWhile (· != 0x0A))

/-- The offset behind the next occurrence of a marker. -/
def behind (buffer : Buffer) (marker : List Char) : Nat → Nat :=
  buffer.seek (ByteScan.behind (utf8 marker))

/-- The offset behind a quoted text, from behind its opening quote. -/
def quoted (buffer : Buffer) (quote : Char) (escapes multiline : Bool) : Nat → Nat :=
  buffer.seek (ByteScan.quoted quote.toUInt8 0 escapes multiline)

/-- The offset behind a text in triple quotes, from behind the opening ones. -/
def tripleQuoted (buffer : Buffer) (quote : Char) : Nat → Nat :=
  buffer.seek (ByteScan.quoted quote.toUInt8 2 true true)

/-- Whether a word starts at an offset. -/
def startsWord (buffer : Buffer) (start : AsciiSet) (offset : Nat) : Bool :=
  match buffer.bytes[offset]? with
  | none => false
  | some byte =>
    if byte < 0x80 then start.hasByte byte
    else ((buffer.bytes.drop offset).toByteArray.utf8DecodeChar? 0).any Unicode.isAlphabetic

/-- The offset behind the characters that go on a word. -/
def word (buffer : Buffer) (set : AsciiSet) : Nat → Nat :=
  buffer.seek (ByteScan.word set)

/-- The offset behind an identifier, if there is one. -/
def identifier? (buffer : Buffer) (offset : Nat) : Option Nat :=
  if buffer.startsWord .identStart offset then some (buffer.word .identContinue offset) else none

variable {buffer : Buffer} {offset start stop i : Nat} {p : UInt8 → Bool}

theorem le_seek {search : List UInt8 → List UInt8} (h : ∀ s, (search s).length ≤ s.length)
    (hoffset : offset ≤ buffer.length) : offset ≤ buffer.seek search offset := by
  have hle := h (buffer.bytes.drop offset)
  rw [List.length_drop] at hle
  simp only [seek, length] at hoffset ⊢
  omega

theorem lt_next (hoffset : offset < buffer.length) : offset < buffer.next offset := by
  simp only [length] at hoffset
  have hpos := charWidth_pos buffer.bytes[offset]
  simp only [next, seek, length, List.drop_eq_getElem_cons hoffset, ByteScan.character,
    List.length_drop, List.length_cons]
  omega

theorem find?_bounds (h : buffer.find? p start stop = some i) :
    start ≤ i ∧ i < stop ∧ i < buffer.length := by
  obtain ⟨n, hn, rfl⟩ := Option.map_eq_some_iff.1 h
  have hlt := (List.findIdx?_eq_some_iff_findIdx_eq.1 hn).1
  rw [List.length_drop, List.length_take] at hlt
  simp only [length]
  omega

theorem lt_length_of_identifier? (h : buffer.identifier? offset = some stop) :
    offset < buffer.length := by
  refine Nat.lt_of_not_le fun hle => ?_
  have hnone : buffer.bytes[offset]? = none := List.getElem?_eq_none hle
  simp [identifier?, startsWord, hnone] at h

theorem lt_length_of_reads {c : Char} (h : buffer.reads offset c = true) :
    offset < buffer.length := by
  refine Nat.lt_of_not_le fun hle => ?_
  have hnone : buffer.bytes[offset]? = none := List.getElem?_eq_none hle
  simp [reads, hnone] at h

theorem le_word {set : AsciiSet} (h : offset ≤ buffer.length) : offset ≤ buffer.word set offset :=
  le_seek (ByteScan.length_word_le set) h

theorem le_word_of_lt {set : AsciiSet} (h : buffer.word set offset < buffer.length) :
    offset ≤ buffer.word set offset := by
  refine Nat.le_of_not_lt fun hlt => ?_
  by_cases hoffset : offset ≤ buffer.length
  · exact absurd (le_word hoffset) (Nat.not_le.2 hlt)
  · have hnil : buffer.bytes.drop offset = [] :=
      List.drop_eq_nil_of_le (Nat.le_of_lt (Nat.not_le.1 hoffset))
    simp [word, seek, hnil, ByteScan.word] at h

theorem le_of_identifier? (h : buffer.identifier? offset = some stop) : offset ≤ stop := by
  have hlt := lt_length_of_identifier? h
  rw [identifier?] at h
  split at h
  · cases h
    exact le_word (Nat.le_of_lt hlt)
  · cases h

theorem le_length_of_startsWith {marker : List Char} (hpos : 0 < (utf8 marker).length)
    (h : buffer.startsWith offset marker = true) :
    offset + (utf8 marker).length ≤ buffer.length := by
  have hle := (List.isPrefixOf_iff_prefix.1 h).length_le
  rw [List.length_drop] at hle
  simp only [length]
  omega

end Buffer

end Highlight
