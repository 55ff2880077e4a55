import Mathlib.Order.Bounds.Defs
import Highlight.Offset
import Highlight.Range

/-!
# Boundaries of characters

Offsets count bytes and scans cut characters, so every law about offsets comes down to where a
character ends. `IsBoundary` says it about the bytes alone: nothing is left behind the offset, or
the byte there begins a character. `isBoundary_iff_append` says the same about the characters, and
the rest of the library only ever needs that half. From a boundary a scan by offset has what is
behind it to read, and no scan sees more.

Out of it comes what a range of bytes stands for. `clamp` ends at the greatest boundary that is not
behind the end asked for, it starts at the greatest one that is neither behind the start asked for
nor behind its own end, and `slice` is the text whose encoding is the bytes between the two.
-/

namespace Highlight

theorem utf8_append (s t : List Char) : utf8 (s ++ t) = utf8 s ++ utf8 t :=
  List.flatMap_append

theorem utf8_cons (c : Char) (s : List Char) :
    utf8 (c :: s) = String.utf8EncodeChar c ++ utf8 s :=
  List.flatMap_cons

theorem length_utf8 (s : List Char) : (utf8 s).length = byteSize s := by
  induction s with
  | nil => rfl
  | cons c s ih =>
      rw [utf8_cons, List.length_append, String.length_utf8EncodeChar, ih, byteSize_cons]

/-- A text is known by its bytes. -/
theorem utf8_injective {s t : List Char} (h : utf8 s = utf8 t) : s = t := by
  have hbytes : s.utf8Encode = t.utf8Encode := congrArg List.toByteArray h
  have htext : String.ofList s = String.ofList t := by
    rw [← String.toByteArray_inj, String.toByteArray_ofList, String.toByteArray_ofList, hbytes]
  exact String.ofList_injective htext

/-- Whether an offset stands between two characters of a text, or at one of its ends: the bytes end
there, or the next one begins a character. -/
def IsBoundary (text : List Char) (offset : Nat) : Prop :=
  offset = (utf8 text).length ∨
    ∃ byte, (utf8 text)[offset]? = some byte ∧ byte.IsUTF8FirstByte

theorem isBoundary_zero (text : List Char) : IsBoundary text 0 := by
  cases text with
  | nil => exact .inl rfl
  | cons c s =>
      have hlen : 0 < (String.utf8EncodeChar c).length := by
        rw [String.length_utf8EncodeChar]
        exact c.utf8Size_pos
      refine .inr ⟨(String.utf8EncodeChar c)[0], ?_,
        UInt8.isUTF8FirstByte_getElem_zero_utf8EncodeChar⟩
      rw [utf8_cons, List.getElem?_append_left hlen, List.getElem?_eq_getElem hlen]

theorem eq_zero_of_isBoundary {c : Char} {s : List Char} {offset : Nat}
    (hlt : offset < c.utf8Size) (h : IsBoundary (c :: s) offset) : offset = 0 := by
  have hlen : offset < (String.utf8EncodeChar c).length := by
    rw [String.length_utf8EncodeChar]
    exact hlt
  rw [IsBoundary, utf8_cons, List.length_append] at h
  rcases h with h | ⟨byte, hbyte, hfirst⟩
  · omega
  · rw [List.getElem?_append_left hlen, List.getElem?_eq_getElem hlen] at hbyte
    cases hbyte
    exact UInt8.isUTF8FirstByte_getElem_utf8EncodeChar.1 hfirst

theorem isBoundary_cons_iff {c : Char} {s : List Char} {offset : Nat}
    (hle : c.utf8Size ≤ offset) :
    IsBoundary (c :: s) offset ↔ IsBoundary s (offset - c.utf8Size) := by
  have hlen : (String.utf8EncodeChar c).length ≤ offset := by
    rw [String.length_utf8EncodeChar]
    exact hle
  rw [IsBoundary, IsBoundary, utf8_cons, List.length_append, List.getElem?_append_right hlen,
    String.length_utf8EncodeChar]
  refine or_congr ?_ Iff.rfl
  omega

theorem isBoundary_append (front back : List Char) :
    IsBoundary (front ++ back) (byteSize front) := by
  induction front with
  | nil => exact isBoundary_zero back
  | cons c s ih =>
      rw [List.cons_append, byteSize_cons, isBoundary_cons_iff (Nat.le_add_right ..),
        Nat.add_sub_cancel_left]
      exact ih

/-- The boundaries of a text are the sizes of its beginnings. -/
theorem isBoundary_iff_append {text : List Char} {offset : Nat} :
    IsBoundary text offset ↔ ∃ front back, text = front ++ back ∧ byteSize front = offset := by
  constructor
  · intro h
    induction text generalizing offset with
    | nil =>
        rcases h with h | ⟨byte, hbyte, -⟩
        · exact ⟨[], [], rfl, h.symm⟩
        · cases hbyte
    | cons c s ih =>
        rcases Nat.lt_or_ge offset c.utf8Size with hlt | hge
        · exact ⟨[], c :: s, rfl, (eq_zero_of_isBoundary hlt h).symm⟩
        · obtain ⟨front, back, hs, hsize⟩ := ih ((isBoundary_cons_iff hge).1 h)
          refine ⟨c :: front, back, by rw [hs]; rfl, ?_⟩
          rw [byteSize_cons, hsize]
          omega
  · rintro ⟨front, back, rfl, rfl⟩
    exact isBoundary_append front back

theorem byteSize_takeBytes_le (n : Nat) (s : List Char) : byteSize (takeBytes n s) ≤ n := by
  induction s generalizing n with
  | nil => exact Nat.zero_le n
  | cons c s ih =>
      rw [takeBytes]
      split
      · next hle =>
          have := ih (n - c.utf8Size)
          rw [byteSize_cons]
          omega
      · exact Nat.zero_le n

theorem takeBytes_append_of_le {n : Nat} {s : List Char} (t : List Char) (h : byteSize s ≤ n) :
    takeBytes n (s ++ t) = s ++ takeBytes (n - byteSize s) t := by
  induction s generalizing n with
  | nil => rfl
  | cons c s ih =>
      rw [byteSize_cons] at h
      rw [List.cons_append, takeBytes, if_pos (by omega), ih (by omega), byteSize_cons,
        Nat.sub_sub, List.cons_append]

theorem dropBytes_append_of_le {n : Nat} {s : List Char} (t : List Char) (h : byteSize s ≤ n) :
    dropBytes n (s ++ t) = dropBytes (n - byteSize s) t := by
  induction s generalizing n with
  | nil => rfl
  | cons c s ih =>
      rw [byteSize_cons] at h
      rw [List.cons_append, dropBytes, if_pos (by omega), ih (by omega), byteSize_cons,
        Nat.sub_sub]

theorem takeBytes_byteSize_append (s t : List Char) : takeBytes (byteSize s) (s ++ t) = s := by
  rw [takeBytes_append_of_le t (Nat.le_refl _), Nat.sub_self]
  cases t with
  | nil => exact List.append_nil s
  | cons c t =>
      rw [takeBytes, if_neg (Nat.not_le.2 c.utf8Size_pos), List.append_nil]

theorem dropBytes_byteSize_append (s t : List Char) : dropBytes (byteSize s) (s ++ t) = t := by
  rw [dropBytes_append_of_le t (Nat.le_refl _), Nat.sub_self, dropBytes_zero]

namespace Offset

theorem seek_of_isBoundary {text : List Char} {offset : Nat} (scan : List Char → List Char)
    (hbound : IsBoundary text offset) :
    seek scan text offset = ofRest text (scan (dropBytes offset text)) := by
  obtain ⟨front, back, rfl, rfl⟩ := isBoundary_iff_append.1 hbound
  rw [seek, from?, if_pos (by rw [byteSize_append]; exact Nat.le_add_right ..)]

theorem recognise?_append {rule : Rule} {kind : Kind} {s rest : List Char} (front : List Char)
    (h : rule (s ++ rest) = some ⟨kind, rest⟩) :
    recognise? rule (front ++ (s ++ rest)) (byteSize front) =
      some (kind, byteSize (front ++ s)) := by
  have hfrom : from? (front ++ (s ++ rest)) (byteSize front) = some (s ++ rest) := by
    rw [from?, if_pos (by rw [byteSize_append]; exact Nat.le_add_right ..),
      dropBytes_byteSize_append]
  have hsize : byteSize (front ++ (s ++ rest)) - byteSize rest = byteSize (front ++ s) := by
    rw [← List.append_assoc, byteSize_append, Nat.add_sub_cancel]
  simp only [recognise?, hfrom, h, ofRest, hsize, Option.bind_eq_bind, Option.bind_some,
    Option.pure_def]

end Offset

/-! ## What a range stands for

A range may ask for any two offsets, in any order, behind the text or inside of a character. What it
stands for lies between two boundaries, and these are the greatest that the offsets leave room for.
-/

namespace ByteRange

/-- A text is what is in front of a range, what the range covers, and what is behind it. -/
theorem before_slice_behind (range : ByteRange) (text : List Char) :
    takeBytes range.start (range.upTo text) ++ range.slice text ++ dropBytes range.stop text
      = text := by
  rw [slice, takeBytes_append_dropBytes, upTo, takeBytes_append_dropBytes]

theorem before_append_slice (range : ByteRange) (text : List Char) :
    takeBytes range.start (range.upTo text) ++ range.slice text = range.upTo text :=
  takeBytes_append_dropBytes ..

theorem clamp_stop_eq (range : ByteRange) (text : List Char) :
    (range.clamp text).stop = (range.clamp text).start + byteSize (range.slice text) := by
  have h := congrArg byteSize (range.before_append_slice text)
  rw [byteSize_append] at h
  exact h.symm

theorem slice_whole (text : List Char) : (whole text).slice text = text := by
  have h := takeBytes_byteSize_append text []
  rw [List.append_nil] at h
  rw [slice, upTo, whole, h, dropBytes_zero]

/-- The slice is the text of the bytes between the two boundaries. -/
theorem utf8_slice (range : ByteRange) (text : List Char) :
    utf8 (range.slice text) =
      ((utf8 text).take (range.clamp text).stop).drop (range.clamp text).start := by
  have htext := congrArg utf8 (range.before_slice_behind text)
  have hstop : (range.clamp text).stop =
      (utf8 (takeBytes range.start (range.upTo text) ++ range.slice text)).length := by
    rw [before_append_slice, length_utf8]
    rfl
  have hstart : (range.clamp text).start =
      (utf8 (takeBytes range.start (range.upTo text))).length := by
    rw [length_utf8]
    rfl
  rw [← htext, utf8_append, hstop, List.take_left, utf8_append, hstart, List.drop_left]

/-- The end of what a range stands for is the greatest boundary not behind the end asked for. -/
theorem isGreatest_clamp_stop (range : ByteRange) (text : List Char) :
    IsGreatest {offset | IsBoundary text offset ∧ offset ≤ min range.stop (byteSize text)}
      (range.clamp text).stop := by
  constructor
  · have happ := takeBytes_append_dropBytes range.stop text
    have hle := congrArg byteSize happ
    rw [byteSize_append] at hle
    refine ⟨isBoundary_iff_append.2 ⟨_, _, happ.symm, rfl⟩, Nat.le_min.2 ⟨?_, ?_⟩⟩
    · exact byteSize_takeBytes_le range.stop text
    · show byteSize (takeBytes range.stop text) ≤ byteSize text
      omega
  · rintro offset ⟨hbound, hle⟩
    obtain ⟨front, back, rfl, rfl⟩ := isBoundary_iff_append.1 hbound
    show byteSize front ≤ byteSize (takeBytes range.stop (front ++ back))
    rw [takeBytes_append_of_le back (Nat.le_min.1 hle).1, byteSize_append]
    exact Nat.le_add_right ..

/-- The start of what a range stands for is the greatest boundary that is neither behind the start
asked for nor behind the end. -/
theorem isGreatest_clamp_start (range : ByteRange) (text : List Char) :
    IsGreatest
      {offset | IsBoundary text offset ∧ offset ≤ min range.start (range.clamp text).stop}
      (range.clamp text).start := by
  constructor
  · have happ := range.before_slice_behind text
    rw [List.append_assoc] at happ
    refine ⟨isBoundary_iff_append.2 ⟨_, _, happ.symm, rfl⟩, Nat.le_min.2 ⟨?_, ?_⟩⟩
    · exact byteSize_takeBytes_le range.start _
    · rw [clamp_stop_eq]
      exact Nat.le_add_right ..
  · rintro offset ⟨hbound, hle⟩
    obtain ⟨front, back, rfl, rfl⟩ := isBoundary_iff_append.1 hbound
    obtain ⟨hstart, hstop⟩ := Nat.le_min.1 hle
    have hstop' : byteSize front ≤ range.stop :=
      Nat.le_trans hstop (byteSize_takeBytes_le range.stop _)
    show byteSize front ≤ byteSize (takeBytes range.start (takeBytes range.stop (front ++ back)))
    rw [takeBytes_append_of_le back hstop', takeBytes_append_of_le _ hstart, byteSize_append]
    exact Nat.le_add_right ..

end ByteRange

end Highlight
