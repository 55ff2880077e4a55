import Mathlib.Data.List.Basic
import Highlight.Buffer
import Highlight.Proofs.ByteScans
import Highlight.Proofs.Runs

/-!
# Reading in place

Whoever reads a buffer at an offset could look at anything in it. What is proved here is that
nothing in front of the offset counts: of two buffers that have the same text left from their
offsets on, each question gets the same answer. The text that is left is all that the answers below
speak of.

`Buffer.At` says which text that is. It holds between characters only, so a test of one byte is a
test of the next character, and a search among the bytes ends where the scan of the characters does
that it `Encodes`. An answer is again an offset at which something is left, and what is left there
is an ending of the text; `offsetOf` is the one offset that has it.
-/

namespace Highlight

theorem before_of_behindIdentifier? {s rest : List Char} (h : behindIdentifier? s = some rest) :
    before s rest = identifierOf s := by
  rw [behindIdentifier?] at h
  split at h
  · cases h
    exact before_dropWhile ..
  · cases h

namespace Buffer

/-- That a buffer has a text left from an offset on. -/
def At (buffer : Buffer) (offset : Nat) (s : List Char) : Prop :=
  ∃ front, buffer.text = front ++ s ∧ byteSize front = offset

/-- The offset from which a buffer has one of its endings left. -/
def offsetOf (buffer : Buffer) (rest : List Char) : Nat :=
  buffer.length - byteSize rest

variable {buffer : Buffer} {offset : Nat} {c : Char} {s rest marker : List Char} {set : AsciiSet}

theorem length_eq (buffer : Buffer) : buffer.length = byteSize buffer.text := by
  rw [length, buffer.bytes_eq, length_utf8]

theorem at_ofText_append (front s : List Char) : (ofText (front ++ s)).At (byteSize front) s :=
  ⟨front, rfl, rfl⟩

theorem at_zero (s : List Char) : (ofText s).At 0 s :=
  at_ofText_append [] s

theorem offsetOf_nil (buffer : Buffer) : buffer.offsetOf [] = buffer.length :=
  Nat.sub_zero _

namespace At

theorem drop_bytes (h : buffer.At offset s) : buffer.bytes.drop offset = utf8 s := by
  obtain ⟨front, htext, rfl⟩ := h
  rw [buffer.bytes_eq, htext, Offset.drop_utf8]

theorem dropBytes_text (h : buffer.At offset s) : dropBytes offset buffer.text = s := by
  obtain ⟨front, htext, rfl⟩ := h
  rw [htext, dropBytes_byteSize_append]

theorem add_byteSize (h : buffer.At offset s) : offset + byteSize s = buffer.length := by
  obtain ⟨front, htext, rfl⟩ := h
  rw [length_eq, htext, byteSize_append]

theorem eq_offsetOf (h : buffer.At offset s) : offset = buffer.offsetOf s :=
  Nat.eq_sub_of_add_eq h.add_byteSize

theorem le_length (h : buffer.At offset s) : offset ≤ buffer.length :=
  h.add_byteSize ▸ Nat.le_add_right ..

theorem lt_length (h : buffer.At offset (c :: s)) : offset < buffer.length := by
  have hpos := c.utf8Size_pos
  rw [← h.add_byteSize, byteSize_cons]
  omega

theorem length_le_iff (h : buffer.At offset s) : buffer.length ≤ offset ↔ s = [] := by
  cases s with
  | nil => exact iff_of_true (h.add_byteSize ▸ Nat.le_refl offset) rfl
  | cons c s => exact iff_of_false (Nat.not_le.2 h.lt_length) (List.cons_ne_nil c s)

theorem append {front : List Char} (h : buffer.At offset (front ++ s)) :
    buffer.At (offset + byteSize front) s := by
  obtain ⟨more, htext, rfl⟩ := h
  exact ⟨more ++ front, by rw [htext, List.append_assoc], byteSize_append ..⟩

theorem tail (h : buffer.At offset (c :: s)) (hc : c.toNat < 128) : buffer.At (offset + 1) s := by
  have hsize := utf8Size_of_ascii hc
  have happend := @append buffer offset s [c] h
  rw [byteSize_cons, byteSize_nil, hsize] at happend
  exact happend

/-- An ending of what is left is left further on. -/
theorem of_suffix (h : buffer.At offset s) (hrest : rest <:+ s) :
    buffer.At (buffer.offsetOf rest) rest := by
  obtain ⟨front, rfl⟩ := hrest
  exact h.append.eq_offsetOf ▸ h.append

theorem offsetOf_of_suffix (h : buffer.At offset s) (hrest : rest <:+ s) :
    buffer.offsetOf rest = offset + byteSize (before s rest) := by
  obtain ⟨front, rfl⟩ := hrest
  rw [before_append, h.append.eq_offsetOf]

theorem le_offsetOf (h : buffer.At offset s) (hrest : rest <:+ s) :
    offset ≤ buffer.offsetOf rest :=
  h.offsetOf_of_suffix hrest ▸ Nat.le_add_right ..

theorem lt_offsetOf (h : buffer.At offset (c :: s)) (hrest : rest <:+ s) :
    offset < buffer.offsetOf rest := by
  obtain ⟨front, rfl⟩ := hrest
  have happend := @append buffer offset rest (c :: front) h
  have hpos := c.utf8Size_pos
  rw [byteSize_cons] at happend
  rw [← happend.eq_offsetOf]
  omega

theorem lt_offsetOf_iff (h : buffer.At offset s) (hrest : rest <:+ s) :
    offset < buffer.offsetOf rest ↔ rest.length < s.length := by
  cases s with
  | nil =>
      rw [List.suffix_nil.1 hrest, ← h.eq_offsetOf]
      simp only [Nat.lt_irrefl]
  | cons c s =>
      rcases List.suffix_cons_iff.1 hrest with rfl | hrest
      · rw [← h.eq_offsetOf]
        simp only [Nat.lt_irrefl]
      · exact iff_of_true (h.lt_offsetOf hrest) (Nat.lt_succ_of_le hrest.length_le)

theorem offsetOf_eq_iff (h : buffer.At offset s) (hrest : rest <:+ s) :
    buffer.offsetOf rest = offset ↔ rest = s := by
  constructor
  · intro heq
    cases s with
    | nil => exact List.suffix_nil.1 hrest
    | cons c s =>
        rcases List.suffix_cons_iff.1 hrest with heq | hrest
        · exact heq
        · exact absurd heq (Nat.ne_of_gt (h.lt_offsetOf hrest))
  · rintro rfl
    exact h.eq_offsetOf.symm

theorem slice_eq (h : buffer.At offset s) (hrest : rest <:+ s) :
    buffer.slice offset (buffer.offsetOf rest) = before s rest := by
  obtain ⟨taken, rfl⟩ := hrest
  obtain ⟨front, htext, rfl⟩ := h
  have htext' : buffer.text = (front ++ taken) ++ rest := by rw [htext, List.append_assoc]
  have hstop : buffer.offsetOf rest = byteSize (front ++ taken) := by
    rw [offsetOf, length_eq, htext', byteSize_append, Nat.add_sub_cancel]
  rw [before_append, slice, ByteRange.slice, ByteRange.upTo, hstop, htext',
    takeBytes_byteSize_append, dropBytes_byteSize_append]

/-! ## What is asked of a buffer

One equation for each question. A test of one byte looks at the next character, if that is of ASCII
or not; a search comes to the offset of what the scan leaves. -/

theorem getElem?_bytes (h : buffer.At offset s) : buffer.bytes[offset]? = (utf8 s).head? := by
  rw [← h.drop_bytes, List.head?_drop]

/-- A test of one byte that tells characters of ASCII. -/
theorem any_bytes {p : UInt8 → Bool} {q : Char → Bool} (hp : Represents p q)
    (h : buffer.At offset s) : buffer.bytes[offset]?.any p = s.head?.any q := by
  rw [h.getElem?_bytes]
  cases s with
  | nil => rfl
  | cons c s =>
      obtain ⟨byte, tail, hbytes, -⟩ := exists_charWidth c
      have hfirst : p byte = q c := hp c byte (by rw [hbytes]; exact List.mem_cons_self)
      rw [utf8_cons, hbytes]
      exact hfirst

theorem readsAny_eq (h : buffer.At offset s) (set : AsciiSet) :
    buffer.readsAny offset set = s.head?.any set.has :=
  h.any_bytes (represents_has set)

theorem reads_eq (h : buffer.At offset s) (hc : c.toNat < 128) :
    buffer.reads offset c = (s.head? == some c) := by
  have hany := h.any_bytes (represents_beq hc)
  rw [reads]
  cases s <;> cases hbyte : buffer.bytes[offset]? <;> rw [hbyte] at hany <;> exact hany

/-- The byte in front of an offset is the last one of the character in front of it. -/
theorem reads_before {line : List Char} (h : buffer.At offset (line ++ rest)) (hne : line ≠ [])
    (hc : c.toNat < 128) :
    buffer.reads (offset + byteSize line - 1) c = (line.getLast? == some c) := by
  have hpos : 0 < byteSize line := by
    rw [← length_utf8]
    exact List.length_pos_of_ne_nil (utf8_ne_nil hne)
  have hbyte : buffer.bytes[offset + byteSize line - 1]? = (utf8 line).getLast? := by
    rw [Nat.add_sub_assoc hpos, ← List.getElem?_drop, h.drop_bytes, utf8_append,
      List.getElem?_append_left (by rw [length_utf8]; exact Nat.sub_one_lt_of_lt hpos),
      List.getLast?_eq_getElem?, length_utf8]
  have hlast := (represents_beq hc).getLast? line
  rw [reads, hbyte]
  cases hbytes : (utf8 line).getLast? <;> cases hchars : line.getLast? <;>
    rw [hbytes, hchars] at hlast <;> exact hlast

theorem any_reads {cs : List Char} (h : buffer.At offset s) (hcs : ∀ c ∈ cs, c.toNat < 128) :
    cs.any (buffer.reads offset) = s.head?.any cs.contains := by
  have hreads : ∀ c ∈ cs, (buffer.reads offset c = true ↔ s.head? = some c) := by
    intro c hc
    rw [h.reads_eq (hcs c hc), beq_iff_eq]
  rw [Bool.eq_iff_iff, List.any_eq_true, Option.any_eq_true]
  constructor
  · rintro ⟨c, hc, hread⟩
    exact ⟨c, (hreads c hc).1 hread, List.contains_iff_mem.2 hc⟩
  · rintro ⟨c, hhead, hc⟩
    have hmem := List.contains_iff_mem.1 hc
    exact ⟨c, hmem, (hreads c hmem).2 hhead⟩

theorem current_cons (h : buffer.At offset (c :: s)) (hc : c.toNat < 128) :
    buffer.current offset = c := by
  rw [current, h.getElem?_bytes, utf8_cons_of_ascii hc, List.head?_cons, Option.getD_some,
    ← Char.toNat_inj]
  exact toNat_toUInt8_of_ascii hc

/-- Where no character of ASCII is next, the byte is that of none, or there is no byte. -/
theorem current_of_not_ascii (h : buffer.At offset s)
    (hs : ∀ c ∈ s.head?, ¬ c.toNat < 128) :
    buffer.current offset = '\x00' ∨ 128 ≤ (buffer.current offset).toNat := by
  rw [current, h.getElem?_bytes]
  cases s with
  | nil => exact .inl rfl
  | cons c s =>
      obtain ⟨byte, tail, hbytes, -, hall⟩ := exists_utf8EncodeChar_of_not_ascii (hs c rfl)
      rw [utf8_cons, hbytes]
      exact .inr (hall byte List.mem_cons_self)

theorem current_eq_iff {d : Char} (h : buffer.At offset (c :: s)) (hd : d.toNat < 128)
    (hzero : d ≠ '\x00') : buffer.current offset = d ↔ c = d := by
  by_cases hc : c.toNat < 128
  · rw [h.current_cons hc]
  · have hcurrent := h.current_of_not_ascii fun e he => by cases he; exact hc
    refine iff_of_false ?_ fun heq => hc (heq ▸ hd)
    rintro rfl
    rcases hcurrent with heq | hle
    · exact hzero heq
    · exact Nat.not_lt.2 hle hd

theorem startsWith_eq (h : buffer.At offset s) (marker : List Char) :
    buffer.startsWith offset marker = marker.isPrefixOf s := by
  rw [startsWith, h.drop_bytes, utf8_isPrefixOf_utf8]

/-- What is in front of an ending is a text that is left in the part of the buffer up to it. -/
theorem upTo {front : List Char} (h : buffer.At offset (front ++ rest)) :
    (buffer.upTo (buffer.offsetOf rest)).At offset front := by
  have hstop := h.append.eq_offsetOf
  obtain ⟨ahead, htext, rfl⟩ := h
  have htake := takeBytes_byteSize_append (ahead ++ front) rest
  rw [byteSize_append, List.append_assoc] at htake
  rw [Buffer.upTo, ← hstop, htext, htake]
  exact at_ofText_append ahead front

theorem isPrefixOf? (h : buffer.At offset s) (hrest : marker.isPrefixOf? s = some rest) :
    buffer.At (offset + byteSize marker) rest :=
  (eq_append_of_isPrefixOf? hrest ▸ h).append

/-- Three quotes in a row are two behind the first. -/
theorem startsWith_quotes {quote : Char} (h : buffer.At offset (quote :: s)) :
    buffer.startsWith offset [quote, quote, quote] = ([quote, quote].isPrefixOf? s).isSome := by
  rw [h.startsWith_eq, List.isSome_isPrefixOf?_eq_isPrefixOf]
  exact (congrArg (· && _) (beq_self_eq_true quote)).trans (Bool.true_and _)

theorem behind_quotes {quote : Char} (h : buffer.At offset (quote :: s))
    (hquote : quote.toNat < 128)
    (hrest : [quote, quote].isPrefixOf? s = some rest) : buffer.At (offset + 3) rest := by
  have hthree := (h.tail hquote).isPrefixOf? hrest
  rw [byteSize_cons, byteSize_cons, byteSize_nil, utf8Size_of_ascii hquote] at hthree
  exact hthree

theorem startsWord_eq (h : buffer.At offset s) (start : AsciiSet) :
    buffer.startsWord start offset = atWord start s := by
  rw [startsWord, h.getElem?_bytes, h.drop_bytes]
  cases s with
  | nil => rfl
  | cons c s =>
      have hdecode := ByteScan.utf8DecodeChar?_utf8_cons c s
      rw [atWord, Highlight.startsWord]
      by_cases hc : c.toNat < 128
      · rw [utf8_cons_of_ascii hc, List.head?_cons]
        dsimp only
        rw [if_pos (toUInt8_lt_of_ascii hc), if_pos hc]
        exact represents_has start c _ ((toUInt8_mem_utf8EncodeChar_iff hc).2 rfl)
      · obtain ⟨byte, tail, hbytes, -, hall⟩ := exists_utf8EncodeChar_of_not_ascii hc
        have hlt := not_lt_of_le_toNat (hall byte List.mem_cons_self)
        rw [hdecode, utf8_cons, hbytes, List.cons_append, List.head?_cons]
        dsimp only
        rw [if_neg hlt, if_neg hc]
        rfl

theorem seek_eq {scan : List Char → List Char} {search : List UInt8 → List UInt8}
    (h : buffer.At offset s) (hsearch : Encodes scan search) :
    buffer.seek search offset = buffer.offsetOf (scan s) := by
  rw [seek, h.drop_bytes, hsearch.search_utf8, length_utf8]
  rfl

/-- A search up to an offset is one through the text in front of what is left there. -/
theorem find?_eq {front : List Char} (h : buffer.At offset (front ++ rest)) (p : UInt8 → Bool) :
    buffer.find? p offset (buffer.offsetOf rest) = ((utf8 front).findIdx? p).map (offset + ·) := by
  have hstop := h.append.eq_offsetOf
  obtain ⟨ahead, htext, rfl⟩ := h
  have hbytes : buffer.bytes = utf8 (ahead ++ front) ++ utf8 rest := by
    rw [buffer.bytes_eq, htext, ← List.append_assoc, utf8_append]
  rw [find?, ← hstop, hbytes, ← byteSize_append, ← length_utf8 (ahead ++ front), List.take_left,
    Offset.drop_utf8]

theorem next_cons (h : buffer.At offset (c :: s)) : buffer.next offset = buffer.offsetOf s :=
  h.seek_eq ByteScan.encodes_character

theorem skipWhile_eq (h : buffer.At offset s) (set : AsciiSet) :
    buffer.skipWhile set offset = buffer.offsetOf (s.dropWhile set.has) :=
  h.seek_eq (ByteScan.encodes_dropWhile (represents_has set))

theorem skipUntil_eq (h : buffer.At offset s) (set : AsciiSet) :
    buffer.skipUntil set offset = buffer.offsetOf (s.dropWhile (!set.has ·)) :=
  h.seek_eq (ByteScan.encodes_dropWhile (represents_has set).not)

theorem line_eq (h : buffer.At offset s) : buffer.line offset = buffer.offsetOf (fromNewline s) :=
  h.seek_eq (ByteScan.encodes_dropWhile (represents_bne (by decide : '\n'.toNat < 128)))

theorem behind_eq (h : buffer.At offset s) (marker : List Char) :
    buffer.behind marker offset = buffer.offsetOf (Highlight.behind marker s) :=
  h.seek_eq (ByteScan.encodes_behind marker)

theorem quoted_eq {quote : Char} (h : buffer.At offset s) (hquote : quote.toNat < 128)
    (escapes multiline : Bool) :
    buffer.quoted quote escapes multiline offset =
      buffer.offsetOf (Quoted.rest quote escapes multiline s) :=
  h.seek_eq (ByteScan.encodes_rest hquote escapes multiline)

theorem tripleQuoted_eq {quote : Char} (h : buffer.At offset s) (hquote : quote.toNat < 128) :
    buffer.tripleQuoted quote offset = buffer.offsetOf (Quoted.tripleRest quote s) :=
  h.seek_eq (ByteScan.encodes_tripleRest hquote)

theorem word_eq (h : buffer.At offset s) (set : AsciiSet) :
    buffer.word set offset = buffer.offsetOf (behindWord set s) :=
  h.seek_eq (ByteScan.encodes_word set)

theorem identifier?_eq (h : buffer.At offset s) :
    buffer.identifier? offset = (behindIdentifier? s).map buffer.offsetOf := by
  rw [identifier?, behindIdentifier?, h.startsWord_eq, h.word_eq]
  split <;> rfl

end At

end Buffer

end Highlight
