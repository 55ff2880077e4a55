import Highlight.ByteScan
import Highlight.Proofs.CharacterReading
import Highlight.Proofs.NestedComments

/-!
# Scans on bytes

A scan by offset could do without characters. The same ends are found by searches among the bytes of
a text: for a byte of a class, for a marker, for a quote that is not behind a backslash. Such a
search never asks where a character ends, and it goes through the inside of characters on its way.
That it comes out between two of them has three reasons. A class of ASCII has no byte of a longer
character, so a search that stops at a byte of the class, or at one that is none, stops where a
character begins. A marker begins where a character does, so none is found inside of one. And the
first byte of a character tells how many bytes belong to it.

So each search leaves the bytes of the very rest that a scan of the characters leaves, which is
`Encodes`, and the rest of a text begins at a boundary.
-/

namespace Highlight

variable {c d quote : Char} {s : List Char} {set : AsciiSet}

/-- A byte that is put together of a mark and the bits below it. -/
theorem toNat_ofNat_mod_add (n : Nat) {m mark : Nat} (hpos : 0 < m) (hle : m + mark ≤ 256) :
    mark ≤ (UInt8.ofNat (n % m + mark)).toNat ∧
      (UInt8.ofNat (n % m + mark)).toNat < m + mark := by
  have hlt := Nat.mod_lt n hpos
  have hsize : UInt8.size = 256 := rfl
  rw [UInt8.toNat_ofNat_of_lt' (by omega)]
  omega

theorem charWidth_eq {byte : UInt8} {width : Nat}
    (h : 192 ≤ byte.toNat ∧ byte.toNat < 224 ∧ width = 2 ∨
      224 ≤ byte.toNat ∧ byte.toNat < 240 ∧ width = 3 ∨
      240 ≤ byte.toNat ∧ byte.toNat < 248 ∧ width = 4) : charWidth byte = width := by
  simp only [charWidth, UInt8.le_iff_toNat_le, UInt8.reduceToNat]
  split_ifs <;> omega

theorem utf8EncodeChar_of_ascii (h : c.toNat < 128) : String.utf8EncodeChar c = [c.toUInt8] :=
  String.utf8EncodeChar_eq_singleton (utf8Size_of_ascii h)

theorem toNat_toUInt8_of_ascii (h : c.toNat < 128) : c.toUInt8.toNat = c.toNat := by
  have hval : c.val.toNat = c.toNat := rfl
  rw [Char.toUInt8, UInt32.toNat_toUInt8, hval]
  omega

theorem toUInt8_lt_of_ascii (h : c.toNat < 128) : c.toUInt8 < 0x80 := by
  rw [UInt8.lt_iff_toNat_lt, toNat_toUInt8_of_ascii h]
  exact h

theorem not_lt_of_le_toNat {byte : UInt8} (h : 128 ≤ byte.toNat) : ¬ byte < 0x80 := by
  rw [UInt8.lt_iff_toNat_lt]
  exact Nat.not_lt.2 h

/-- No byte of a character beyond ASCII is of ASCII, and the first one tells how many there are. -/
theorem exists_utf8EncodeChar_of_not_ascii (h : ¬ c.toNat < 128) :
    ∃ byte tail, String.utf8EncodeChar c = byte :: tail ∧
      charWidth byte = (byte :: tail).length ∧ ∀ b ∈ byte :: tail, 128 ≤ b.toNat := by
  have htail (n : Nat) : 128 ≤ (UInt8.ofNat (n % 64 + 128)).toNat :=
    (toNat_ofNat_mod_add n (by decide) (by decide)).1
  unfold String.utf8EncodeChar
  dsimp only
  split
  · next hle => exact absurd (Nat.lt_succ_of_le hle) h
  · split
    · obtain ⟨hge, hlt⟩ := @toNat_ofNat_mod_add (c.val.toNat / 64) 32 192 (by decide) (by decide)
      refine ⟨_, _, rfl, charWidth_eq (.inl ⟨hge, hlt, rfl⟩), ?_⟩
      simp only [List.forall_mem_cons, htail]
      exact ⟨by omega, trivial, nofun⟩
    · split
      · obtain ⟨hge, hlt⟩ :=
          @toNat_ofNat_mod_add (c.val.toNat / 4096) 16 224 (by decide) (by decide)
        refine ⟨_, _, rfl, charWidth_eq (.inr (.inl ⟨hge, hlt, rfl⟩)), ?_⟩
        simp only [List.forall_mem_cons, htail]
        exact ⟨by omega, trivial, trivial, nofun⟩
      · obtain ⟨hge, hlt⟩ :=
          @toNat_ofNat_mod_add (c.val.toNat / 262144) 8 240 (by decide) (by decide)
        refine ⟨_, _, rfl, charWidth_eq (.inr (.inr ⟨hge, hlt, rfl⟩)), ?_⟩
        simp only [List.forall_mem_cons, htail]
        exact ⟨by omega, trivial, trivial, trivial, nofun⟩

theorem exists_charWidth (c : Char) :
    ∃ byte tail, String.utf8EncodeChar c = byte :: tail ∧
      charWidth byte = (byte :: tail).length := by
  by_cases hc : c.toNat < 128
  · refine ⟨c.toUInt8, [], utf8EncodeChar_of_ascii hc, ?_⟩
    have hnat := toNat_toUInt8_of_ascii hc
    simp only [charWidth, UInt8.le_iff_toNat_le, UInt8.reduceToNat]
    rw [if_neg (by omega), if_neg (by omega), if_neg (by omega)]
    rfl
  · obtain ⟨byte, tail, hbytes, hwidth, -⟩ := exists_utf8EncodeChar_of_not_ascii hc
    exact ⟨byte, tail, hbytes, hwidth⟩

/-- A byte of ASCII is met as a character of its own only. -/
theorem toUInt8_mem_utf8EncodeChar_iff (hd : d.toNat < 128) :
    d.toUInt8 ∈ String.utf8EncodeChar c ↔ c = d := by
  constructor
  · intro hmem
    by_cases hc : c.toNat < 128
    · rw [utf8EncodeChar_of_ascii hc, List.mem_singleton] at hmem
      have hnat := congrArg UInt8.toNat hmem
      rw [toNat_toUInt8_of_ascii hc, toNat_toUInt8_of_ascii hd] at hnat
      exact (Char.toNat_inj.1 hnat).symm
    · obtain ⟨byte, tail, hbytes, -, hall⟩ := exists_utf8EncodeChar_of_not_ascii hc
      rw [hbytes] at hmem
      have hge := hall _ hmem
      rw [toNat_toUInt8_of_ascii hd] at hge
      omega
  · rintro rfl
    rw [utf8EncodeChar_of_ascii hd]
    exact List.mem_singleton_self _

theorem ne_of_mem_utf8EncodeChar {byte : UInt8} (hbyte : byte ∈ String.utf8EncodeChar c)
    (hd : d.toNat < 128) (hc : c ≠ d) : byte ≠ d.toUInt8 := fun heq =>
  hc ((toUInt8_mem_utf8EncodeChar_iff hd).1 (heq ▸ hbyte))

theorem mem_utf8_iff (hd : d.toNat < 128) : d.toUInt8 ∈ utf8 s ↔ d ∈ s := by
  rw [utf8, List.mem_flatMap]
  simp only [toUInt8_mem_utf8EncodeChar_iff hd, exists_eq_right]

theorem utf8_nil : utf8 [] = [] := rfl

theorem utf8_cons_of_ascii (hc : c.toNat < 128) (s : List Char) :
    utf8 (c :: s) = c.toUInt8 :: utf8 s := by
  rw [utf8_cons, utf8EncodeChar_of_ascii hc]
  rfl

theorem utf8_replicate (hc : c.toNat < 128) (n : Nat) :
    utf8 (List.replicate n c) = List.replicate n c.toUInt8 := by
  induction n with
  | zero => rfl
  | succ n ih => rw [List.replicate_succ, utf8_cons_of_ascii hc, ih, List.replicate_succ]

/-! ## Classes of bytes

A search for the bytes of a class stops nowhere inside a character if all bytes of a character are
of the class or none is. This is so of ASCII characters and of classes of them, and it goes from
classes to what is in one of two, in both, or in neither. -/

/-- Whether the bytes of a character are all of a class or all not, as the character is of another
or is not. -/
def Represents (p : UInt8 → Bool) (q : Char → Bool) : Prop :=
  ∀ c, ∀ byte ∈ String.utf8EncodeChar c, p byte = q c

theorem Represents.dropWhile {p : UInt8 → Bool} {q : Char → Bool} (h : Represents p q)
    (s : List Char) : (utf8 s).dropWhile p = utf8 (s.dropWhile q) := by
  induction s with
  | nil => rfl
  | cons c s ih =>
      cases hc : q c with
      | true =>
          have hall : ∀ byte ∈ String.utf8EncodeChar c, p byte = true := by
            intro byte hbyte
            rw [h c byte hbyte, hc]
          rw [utf8_cons, List.dropWhile_append_of_pos hall, List.dropWhile_cons_of_pos hc, ih]
      | false =>
          obtain ⟨byte, tail, hbytes, -, -⟩ := exists_utf8EncodeChar c
          have hfirst : p byte = q c := h c byte (by rw [hbytes]; exact List.mem_cons_self)
          rw [List.dropWhile_cons_of_neg (by rw [hc]; decide), utf8_cons, hbytes, List.cons_append,
            List.dropWhile_cons_of_neg (by rw [hfirst, hc]; decide)]

theorem Represents.takeWhile {p : UInt8 → Bool} {q : Char → Bool} (h : Represents p q)
    (s : List Char) : (utf8 s).takeWhile p = utf8 (s.takeWhile q) := by
  have hbytes := @List.takeWhile_append_dropWhile _ p (utf8 s)
  have hsplit := congrArg utf8 (@List.takeWhile_append_dropWhile _ q s)
  rw [utf8_append] at hsplit
  rw [h.dropWhile] at hbytes
  exact List.append_cancel_right (hbytes.trans hsplit.symm)

theorem Represents.not {p : UInt8 → Bool} {q : Char → Bool} (h : Represents p q) :
    Represents (!p ·) (!q ·) :=
  fun c byte hbyte => congrArg (!·) (h c byte hbyte)

theorem Represents.findIdx?_eq_none {p : UInt8 → Bool} {q : Char → Bool} (h : Represents p q)
    (hs : ∀ d ∈ s, q d = false) : (utf8 s).findIdx? p = none := by
  rw [List.findIdx?_eq_none_iff]
  intro byte hbyte
  obtain ⟨d, hd, hbyte⟩ := List.mem_flatMap.1 hbyte
  rw [h d byte hbyte, hs d hd]

theorem Represents.or {p p' : UInt8 → Bool} {q q' : Char → Bool} (h : Represents p q)
    (h' : Represents p' q') : Represents (fun byte => p byte || p' byte) fun c => q c || q' c :=
  fun c byte hbyte => congrArg₂ (· || ·) (h c byte hbyte) (h' c byte hbyte)

theorem Represents.and {p p' : UInt8 → Bool} {q q' : Char → Bool} (h : Represents p q)
    (h' : Represents p' q') : Represents (fun byte => p byte && p' byte) fun c => q c && q' c :=
  fun c byte hbyte => congrArg₂ (· && ·) (h c byte hbyte) (h' c byte hbyte)

/-- A search for a byte finds the first character whose bytes it is looking for. -/
theorem Represents.findIdx?_append_cons {p : UInt8 → Bool} {q : Char → Bool} (h : Represents p q)
    {front : List Char} (hfront : ∀ d ∈ front, q d = false) (hc : q c = true) (s : List Char) :
    (utf8 (front ++ c :: s)).findIdx? p = some (byteSize front) := by
  obtain ⟨byte, tail, hbytes, -⟩ := exists_charWidth c
  have hbyte : p byte = true := by
    rw [h c byte (by rw [hbytes]; exact List.mem_cons_self), hc]
  rw [utf8_append, List.findIdx?_append, h.findIdx?_eq_none hfront, utf8_cons, hbytes,
    List.cons_append, List.findIdx?_cons, hbyte, length_utf8]
  simp

theorem Represents.getLast? {p : UInt8 → Bool} {q : Char → Bool} (h : Represents p q)
    (s : List Char) : (utf8 s).getLast?.any p = s.getLast?.any q := by
  rcases List.eq_nil_or_concat s with rfl | ⟨front, d, rfl⟩
  · rfl
  · have hne := String.utf8EncodeChar_ne_nil (c := d)
    have hlast : (utf8 (front ++ [d])).getLast? = some ((String.utf8EncodeChar d).getLast hne) := by
      rw [utf8_append, utf8_cons, utf8_nil, List.append_nil, List.getLast?_append,
        List.getLast?_eq_some_getLast hne, Option.some_or]
    rw [List.concat_eq_append, hlast, List.getLast?_concat]
    exact h d _ (List.getLast_mem hne)

theorem represents_has (set : AsciiSet) : Represents set.hasByte set.has := by
  intro c byte hbyte
  by_cases hc : c.toNat < 128
  · rw [utf8EncodeChar_of_ascii hc, List.mem_singleton] at hbyte
    have hchar : Char.ofUInt8 c.toUInt8 = c := by
      rw [← Char.toNat_inj]
      exact toNat_toUInt8_of_ascii hc
    rw [hbyte, AsciiSet.hasByte, hchar]
  · -- Neither the byte nor the character is of ASCII, and the set has nothing else.
    obtain ⟨first, tail, hbytes, -, hall⟩ := exists_utf8EncodeChar_of_not_ascii hc
    have hge : 128 ≤ (Char.ofUInt8 byte).toNat := hall byte (hbytes ▸ hbyte)
    have hhas : set.has c = false := Bool.eq_false_iff.2 fun h => hc (set.ascii c h)
    rw [hhas, AsciiSet.hasByte, Bool.eq_false_iff]
    intro h
    have hlt := set.ascii _ h
    omega

theorem represents_beq (hd : d.toNat < 128) : Represents (· == d.toUInt8) (· == d) := by
  intro c byte hbyte
  by_cases hc : c = d
  · subst hc
    rw [utf8EncodeChar_of_ascii hd, List.mem_singleton] at hbyte
    simp [hbyte]
  · have hne := ne_of_mem_utf8EncodeChar hbyte hd hc
    exact (beq_false_of_ne hne).trans (beq_false_of_ne hc).symm

theorem represents_bne (hd : d.toNat < 128) : Represents (· != d.toUInt8) (· != d) :=
  (represents_beq hd).not

/-- Whether a scan leaves an ending of a text, and a search among the bytes leaves the bytes of that
ending. -/
structure Encodes (scan : List Char → List Char) (search : List UInt8 → List UInt8) : Prop where
  suffix : ∀ s, scan s <:+ s
  search_utf8 : ∀ s, search (utf8 s) = utf8 (scan s)

namespace ByteScan

variable {more depth : Nat} {escapes multiline : Bool} {opening closing marker : List Char}
  {tail bytes front : List UInt8}

theorem encodes_dropWhile {p : UInt8 → Bool} {q : Char → Bool} (h : Represents p q) :
    Encodes (·.dropWhile q) (·.dropWhile p) where
  suffix := fun _ => List.dropWhile_suffix q
  search_utf8 := h.dropWhile

theorem character_utf8 (c : Char) (s : List Char) : character (utf8 (c :: s)) = utf8 s := by
  obtain ⟨byte, tail, hbytes, hwidth⟩ := exists_charWidth c
  rw [utf8_cons, hbytes, List.cons_append, character, hwidth, ← List.cons_append, List.drop_left]

theorem encodes_character : Encodes (·.drop 1) character where
  suffix := fun _ => List.drop_suffix ..
  search_utf8 := by
    intro s
    cases s with
    | nil => rfl
    | cons c s => exact character_utf8 c s

theorem utf8DecodeChar?_utf8_cons (c : Char) (s : List Char) :
    (utf8 (c :: s)).toByteArray.utf8DecodeChar? 0 = some c := by
  rw [utf8_cons, List.toByteArray_append]
  exact ByteArray.utf8DecodeChar?_utf8EncodeChar_append

/-- The search goes past a character or ends at it, however many bytes it has. -/
theorem word_utf8_cons (set : AsciiSet) (c : Char) (s : List Char) :
    word set (utf8 (c :: s)) =
      if continuesWord set c then word set (utf8 s) else utf8 (c :: s) := by
  by_cases hc : c.toNat < 128
  · have hhas : set.hasByte c.toUInt8 = set.has c :=
      represents_has set c _ ((toUInt8_mem_utf8EncodeChar_iff hc).2 rfl)
    rw [utf8_cons_of_ascii hc, word, if_pos (toUInt8_lt_of_ascii hc), hhas, continuesWord,
      if_pos hc]
  · obtain ⟨byte, tail, hbytes, -, hall⟩ := exists_utf8EncodeChar_of_not_ascii hc
    have hlt := not_lt_of_le_toNat (hall byte List.mem_cons_self)
    have hutf8 : utf8 (c :: s) = byte :: (tail ++ utf8 s) := by
      rw [utf8_cons, hbytes, List.cons_append]
    have hdecode := utf8DecodeChar?_utf8_cons c s
    have hdrop : (tail ++ utf8 s).drop (c.utf8Size - 1) = utf8 s := by
      rw [← String.length_utf8EncodeChar, hbytes]
      exact List.drop_left
    rw [hutf8] at hdecode ⊢
    rw [word, if_neg hlt, hdecode, continuesWord, if_neg hc]
    dsimp only
    rw [hdrop]

theorem word_utf8 (set : AsciiSet) (s : List Char) :
    word set (utf8 s) = utf8 (behindWord set s) := by
  induction s with
  | nil => rw [behindWord, List.dropWhile_nil, utf8_nil, word]
  | cons c s ih =>
      rw [word_utf8_cons]
      cases hword : continuesWord set c with
      | true => rw [if_pos rfl, ih, behindWord_cons hword]
      | false =>
          rw [if_neg Bool.false_ne_true, behindWord,
            List.dropWhile_cons_of_neg (by rw [hword]; decide)]

theorem encodes_word (set : AsciiSet) : Encodes (behindWord set) (word set) where
  suffix := behindWord_suffix set
  search_utf8 := word_utf8 set

theorem quoted_append_of_plain {q : UInt8} (s : List UInt8)
    (h : ∀ byte ∈ front, byte ≠ q ∧ ¬ (byte = 0x0A ∧ multiline = false) ∧
      ¬ (byte = 0x5C ∧ escapes = true)) :
    quoted q more escapes multiline (front ++ s) = quoted q more escapes multiline s := by
  induction front with
  | nil => rfl
  | cons byte front ih =>
      obtain ⟨⟨hquote, hline, hescape⟩, hmore⟩ := List.forall_mem_cons.1 h
      rw [List.cons_append, quoted, if_neg hquote, if_neg hline, if_neg hescape]
      exact ih hmore

theorem quoted_utf8_quote (hquote : quote.toNat < 128) (s : List Char) :
    quoted quote.toUInt8 more escapes multiline (utf8 (quote :: s)) =
      ((List.replicate more quote).isPrefixOf? s).elim
        (quoted quote.toUInt8 more escapes multiline (utf8 s)) utf8 := by
  have hmarker := utf8_replicate hquote more
  rw [utf8_cons_of_ascii hquote, quoted, if_pos rfl]
  by_cases hprefix : List.replicate more quote <+: s
  · obtain ⟨t, rfl⟩ := hprefix
    rw [isPrefixOf?_append, utf8_append, hmarker,
      if_pos (List.isPrefixOf_iff_prefix.2 (List.prefix_append ..))]
    exact List.drop_left' List.length_replicate
  · rw [isPrefixOf?_eq_none hprefix, Option.elim_none, if_neg]
    rw [← hmarker, List.isPrefixOf_iff_prefix, utf8_prefix_utf8_iff]
    exact hprefix

theorem quoted_utf8_cons_of_ne (hquote : quote.toNat < 128) (hc : c ≠ quote) (s : List Char) :
    quoted quote.toUInt8 more escapes multiline (utf8 (c :: s)) =
      if c = '\n' ∧ multiline = false then utf8 (c :: s)
      else quoted quote.toUInt8 more escapes multiline
        (utf8 (if c = '\x5c' ∧ escapes = true then s.drop 1 else s)) := by
  by_cases hline : c = '\n' ∧ multiline = false
  · obtain ⟨rfl, rfl⟩ := hline
    have hne : '\n'.toUInt8 ≠ quote.toUInt8 :=
      ne_of_mem_utf8EncodeChar (List.mem_singleton_self _) hquote hc
    rw [if_pos ⟨rfl, rfl⟩, utf8_cons_of_ascii (by decide), quoted, if_neg hne, if_pos ⟨rfl, rfl⟩]
  · rw [if_neg hline]
    by_cases hescape : c = '\x5c' ∧ escapes = true
    · obtain ⟨rfl, rfl⟩ := hescape
      have hne : '\x5c'.toUInt8 ≠ quote.toUInt8 :=
        ne_of_mem_utf8EncodeChar (List.mem_singleton_self _) hquote hc
      rw [if_pos ⟨rfl, rfl⟩, utf8_cons_of_ascii (by decide), quoted, if_neg hne,
        if_neg (fun h => absurd h.1 (by decide)), if_pos ⟨rfl, rfl⟩, encodes_character.search_utf8]
    · rw [if_neg hescape, utf8_cons]
      -- None of the bytes means anything, be they inside the character or in front.
      refine quoted_append_of_plain _ fun byte hbyte =>
        ⟨ne_of_mem_utf8EncodeChar hbyte hquote hc, fun h => ?_, fun h => ?_⟩
      · exact ne_of_mem_utf8EncodeChar (d := '\n') hbyte (by decide) (fun hc => hline ⟨hc, h.2⟩) h.1
      · exact ne_of_mem_utf8EncodeChar (d := '\x5c') hbyte (by decide)
          (fun hc => hescape ⟨hc, h.2⟩) h.1

/-- The search leaves what is left by whatever reads a quoted text character by character. -/
theorem quoted_utf8 {f : List Char → List Char} (hquote : quote.toNat < 128) (hnil : f [] = [])
    (hcons : ∀ c s, f (c :: s) =
      if c = quote then ((List.replicate more quote).isPrefixOf? s).getD (f s)
      else if c = '\n' ∧ multiline = false then c :: s
      else if c = '\x5c' ∧ escapes = true then f (s.drop 1)
      else f s) (s : List Char) :
    quoted quote.toUInt8 more escapes multiline (utf8 s) = utf8 (f s) := by
  induction hlength : s.length using Nat.strongRecOn generalizing s with
  | _ length ih =>
      subst hlength
      cases s with
      | nil => rw [hnil, utf8_nil, quoted]
      | cons c s =>
          have hlength (n : Nat) : (s.drop n).length < (c :: s).length := by
            rw [List.length_drop, List.length_cons]
            omega
          have hmore (n : Nat) := ih (s.drop n).length (hlength n) (s.drop n) rfl
          have hself := hmore 0
          rw [List.drop_zero] at hself
          rw [hcons]
          by_cases hc : c = quote
          · rw [if_pos hc, hc, quoted_utf8_quote hquote, hself]
            cases (List.replicate more quote).isPrefixOf? s <;> rfl
          · rw [if_neg hc, quoted_utf8_cons_of_ne hquote hc]
            split
            · rfl
            · split
              · exact hmore 1
              · exact hself

theorem encodes_rest (hquote : quote.toNat < 128) (escapes multiline : Bool) :
    Encodes (Quoted.rest quote escapes multiline) (quoted quote.toUInt8 0 escapes multiline) where
  suffix := Quoted.rest_suffix quote escapes multiline
  search_utf8 := quoted_utf8 hquote Quoted.rest_nil (Quoted.rest_cons quote escapes multiline)

theorem encodes_tripleRest (hquote : quote.toNat < 128) :
    Encodes (Quoted.tripleRest quote) (quoted quote.toUInt8 2 true true) where
  suffix := Quoted.tripleRest_suffix quote
  search_utf8 := by
    refine quoted_utf8 hquote Quoted.tripleRest_nil fun c s => ?_
    rw [Quoted.tripleRest_cons]
    simp only [Bool.true_eq_false, and_false, if_false, and_true]
    rfl

theorem exists_utf8_cons (c : Char) (s : List Char) :
    ∃ byte tail, utf8 (c :: s) = byte :: (tail ++ utf8 s) ∧ Inside tail := by
  obtain ⟨byte, tail, hbytes, -, hinside⟩ := exists_utf8EncodeChar c
  exact ⟨byte, tail, by rw [utf8_cons, hbytes, List.cons_append], hinside⟩

/-- A search for markers passes the inside of a character byte by byte. -/
theorem not_prefix_of_inside {byte : UInt8} (hne : marker ≠ []) (h : Inside (byte :: tail))
    (s : List UInt8) : ¬ utf8 marker <+: byte :: (tail ++ s) := by
  rw [← List.cons_append]
  exact fun hprefix => List.cons_ne_nil byte tail (h.eq_nil_of_marker hne hprefix)

theorem behind_inside (hne : marker ≠ []) (h : Inside tail) (s : List UInt8) :
    behind (utf8 marker) (tail ++ s) = behind (utf8 marker) s := by
  induction tail with
  | nil => rfl
  | cons byte tail ih =>
      rw [List.cons_append, behind,
        if_neg (mt List.isPrefixOf_iff_prefix.1 (not_prefix_of_inside hne h s))]
      exact ih fun b hb => h b (List.mem_cons_of_mem byte hb)

theorem behind_utf8 (marker s : List Char) :
    behind (utf8 marker) (utf8 s) = utf8 (Highlight.behind marker s) := by
  induction s with
  | nil => rfl
  | cons c s ih =>
      obtain ⟨byte, tail, hbytes, hinside⟩ := exists_utf8_cons c s
      by_cases hprefix : marker <+: c :: s
      · obtain ⟨t, ht⟩ := hprefix
        have hmarker : (utf8 marker).isPrefixOf (utf8 marker ++ utf8 t) = true :=
          List.isPrefixOf_iff_prefix.2 (List.prefix_append ..)
        rw [Highlight.behind, ← ht, isPrefixOf?_append, ht, hbytes, behind, ← hbytes, ← ht,
          utf8_append, if_pos hmarker, List.drop_left]
      · have hne : marker ≠ [] := fun hnil => hprefix (hnil ▸ List.nil_prefix)
        rw [Highlight.behind, isPrefixOf?_eq_none hprefix, hbytes, behind, ← hbytes, if_neg,
          behind_inside hne hinside, ih]
        rw [List.isPrefixOf_iff_prefix, utf8_prefix_utf8_iff]
        exact hprefix

theorem encodes_behind (marker : List Char) :
    Encodes (Highlight.behind marker) (behind (utf8 marker)) where
  suffix := behind_suffix marker
  search_utf8 := behind_utf8 marker

/-- A raw text in hashes ends behind a quote with hashes, which is a marker like another. -/
theorem hashedRest_eq_behind (hashes : Nat) (s : List Char) :
    Quoted.hashedRest hashes s = Highlight.behind ('\x22' :: List.replicate hashes '#') s := by
  induction s with
  | nil => rfl
  | cons c s ih =>
      rw [Quoted.hashedRest, Highlight.behind]
      by_cases hc : c = '\x22'
      · subst hc
        rw [if_pos rfl, ih]
        rfl
      · rw [if_neg hc, isPrefixOf?_eq_none fun h => hc (List.cons_prefix_cons.1 h).1.symm, ih]

theorem encodes_hashedRest (hashes : Nat) :
    Encodes (Quoted.hashedRest hashes) (behind (0x22 :: List.replicate hashes 0x23)) where
  suffix := Quoted.hashedRest_suffix hashes
  search_utf8 := by
    intro s
    have hmarker : utf8 ('\x22' :: List.replicate hashes '#') =
        0x22 :: List.replicate hashes 0x23 := by
      rw [utf8_cons_of_ascii (by decide), utf8_replicate (by decide)]
      rfl
    rw [hashedRest_eq_behind, ← hmarker]
    exact behind_utf8 _ s

/-! ## Comments in comments

Among the bytes as among the characters a search counts how many comments are open. At a marker both
do the same. Any other character is passed in one step by the one search and byte by byte by the
other, which meets no marker inside of it. -/

section

variable {opener closer : List UInt8} {byte : UInt8}

theorem nestedLoop_closing (hne : closer ≠ []) (s : List UInt8) :
    nestedLoop opener closer depth (closer ++ s) =
      if depth = 0 then s else nestedLoop opener closer (depth - 1) s := by
  obtain ⟨b, bs, rfl⟩ := List.exists_cons_of_ne_nil hne
  have hprefix : (b :: bs).isPrefixOf (b :: (bs ++ s)) = true :=
    List.isPrefixOf_iff_prefix.2 (List.prefix_append (b :: bs) s)
  rw [List.cons_append, nestedLoop, if_pos hprefix, List.length_cons, Nat.add_sub_cancel,
    List.drop_left]

theorem nestedLoop_opening (hne : opener ≠ []) {s : List UInt8} (h : ¬ closer <+: opener ++ s) :
    nestedLoop opener closer depth (opener ++ s) = nestedLoop opener closer (depth + 1) s := by
  obtain ⟨b, bs, rfl⟩ := List.exists_cons_of_ne_nil hne
  have hprefix : (b :: bs).isPrefixOf (b :: (bs ++ s)) = true :=
    List.isPrefixOf_iff_prefix.2 (List.prefix_append (b :: bs) s)
  rw [List.cons_append] at h ⊢
  rw [nestedLoop, if_neg (mt List.isPrefixOf_iff_prefix.1 h), if_pos hprefix, List.length_cons,
    Nat.add_sub_cancel, List.drop_left]

theorem nestedLoop_passed {s : List UInt8} (hclosing : ¬ closer <+: byte :: s)
    (hopening : ¬ opener <+: byte :: s) :
    nestedLoop opener closer depth (byte :: s) = nestedLoop opener closer depth s := by
  rw [nestedLoop, if_neg (mt List.isPrefixOf_iff_prefix.1 hclosing),
    if_neg (mt List.isPrefixOf_iff_prefix.1 hopening)]

end

theorem nestedLoop_inside (hopening : opening ≠ []) (hclosing : closing ≠ []) (h : Inside tail)
    (s : List UInt8) :
    nestedLoop (utf8 opening) (utf8 closing) depth (tail ++ s) =
      nestedLoop (utf8 opening) (utf8 closing) depth s := by
  induction tail with
  | nil => rfl
  | cons byte tail ih =>
      rw [List.cons_append, nestedLoop_passed (not_prefix_of_inside hclosing h s)
        (not_prefix_of_inside hopening h s)]
      exact ih fun b hb => h b (List.mem_cons_of_mem byte hb)

theorem nestedLoop_utf8 {o c : Char} {os cs : List Char} (depth : Nat) (s : List Char) :
    nestedLoop (utf8 (o :: os)) (utf8 (c :: cs)) depth (utf8 s) =
      utf8 (CommentSyntax.nestedLoop o os c cs (depth + 1) s) := by
  induction hlength : s.length using Nat.strongRecOn generalizing s depth with
  | _ length ih =>
      subst hlength
      by_cases hclosing : c :: cs <+: s
      · obtain ⟨t, rfl⟩ := hclosing
        rw [utf8_append, nestedLoop_closing (utf8_ne_nil (List.cons_ne_nil c cs)),
          CommentSyntax.nestedLoop_closing]
        cases depth with
        | zero => rfl
        | succ depth =>
            rw [if_neg (Nat.succ_ne_zero depth), if_neg (Nat.succ_ne_zero depth)]
            refine ih t.length ?_ depth t rfl
            rw [List.length_append, List.length_cons]
            omega
      · have hclosing' := mt utf8_prefix_utf8_iff.1 hclosing
        by_cases hopening : o :: os <+: s
        · obtain ⟨t, rfl⟩ := hopening
          rw [utf8_append] at hclosing' ⊢
          rw [nestedLoop_opening (utf8_ne_nil (List.cons_ne_nil o os)) hclosing',
            CommentSyntax.nestedLoop_opening hclosing]
          refine ih t.length ?_ (depth + 1) t rfl
          rw [List.length_append, List.length_cons]
          omega
        · have hopening' := mt utf8_prefix_utf8_iff.1 hopening
          cases s with
          | nil =>
              rw [CommentSyntax.nestedLoop_nil, utf8_nil, nestedLoop]
          | cons x s =>
              obtain ⟨byte, tail, hbytes, hinside⟩ := exists_utf8_cons x s
              rw [hbytes] at hclosing' hopening' ⊢
              rw [nestedLoop_passed hclosing' hopening',
                nestedLoop_inside (List.cons_ne_nil o os) (List.cons_ne_nil c cs) hinside,
                CommentSyntax.nestedLoop_passed hclosing hopening]
              exact ih s.length (Nat.lt_succ_self _) depth s rfl

theorem encodes_nestedRest (opening closing : List Char) :
    Encodes (CommentSyntax.nestedRest opening closing) (nested (utf8 opening) (utf8 closing)) where
  suffix := CommentSyntax.nestedRest_suffix opening closing
  search_utf8 := by
    intro s
    unfold CommentSyntax.nestedRest
    split
    · next o os c cs =>
        rw [nested, if_neg, nestedLoop_utf8]
        exact not_or.2 ⟨utf8_ne_nil (List.cons_ne_nil o os), utf8_ne_nil (List.cons_ne_nil c cs)⟩
    · next hnil =>
        rw [nested, if_pos]
        · rfl
        cases opening with
        | nil => exact .inl rfl
        | cons o os =>
            cases closing with
            | nil => exact .inr rfl
            | cons c cs => exact absurd rfl (hnil o os c cs rfl)

end ByteScan

/-! ## Offsets

What is left of a text begins at a boundary. So an offset that a search comes to by leaving the
bytes of a rest is a boundary, and as a rest is no longer than the text it is left of, the offset is
not in front of the one the search began at. -/

namespace Offset

variable {text : List Char} {offset stop : Nat} {scan : List Char → List Char}
  {search : List UInt8 → List UInt8}

/-- What is to be said of an offset that a search among the bytes of a text comes to from another.
It is not in front of that one, not behind the text and not inside a character, and the bytes
between the two are those of a text. -/
structure Lands (search : List UInt8 → List UInt8) (text : List Char) (offset stop : Nat) :
    Prop where
  drop_eq : (utf8 text).drop stop = search ((utf8 text).drop offset)
  le_stop : offset ≤ stop
  stop_le : stop ≤ byteSize text
  isBoundary : IsBoundary text stop
  exists_slice : ∃ taken, ((utf8 text).take stop).drop offset = utf8 taken

theorem drop_utf8 (front back : List Char) :
    (utf8 (front ++ back)).drop (byteSize front) = utf8 back := by
  rw [utf8_append, ← length_utf8, List.drop_left]

theorem lands_seek (h : Encodes scan search) (hbound : IsBoundary text offset) :
    Lands search text offset (seek scan text offset) := by
  obtain ⟨front, back, rfl, rfl⟩ := isBoundary_iff_append.1 hbound
  obtain ⟨taken, htaken⟩ := h.suffix back
  have htext : front ++ back = front ++ taken ++ scan back := by rw [List.append_assoc, htaken]
  have hstop : seek scan (front ++ back) (byteSize front) = byteSize (front ++ taken) := by
    rw [seek_of_isBoundary scan hbound, dropBytes_byteSize_append, ofRest, htext, byteSize_append,
      Nat.add_sub_cancel]
  rw [hstop]
  refine ⟨?_, ?_, ?_, ?_, taken, ?_⟩
  · rw [drop_utf8, h.search_utf8, htext, drop_utf8]
  · rw [byteSize_append]
    exact Nat.le_add_right ..
  · rw [htext, byteSize_append (front ++ taken)]
    exact Nat.le_add_right ..
  · rw [htext]
    exact isBoundary_append (front ++ taken) (scan back)
  · rw [htext, utf8_append (front ++ taken), ← length_utf8 (front ++ taken), List.take_left,
      drop_utf8]

theorem lands_skip (h : Encodes scan search) (hbound : IsBoundary text offset) :
    Lands search text offset (skip scan text offset) := by
  have hlands := lands_seek h hbound
  have hskip : skip scan text offset = max offset (seek scan text offset) := by
    obtain ⟨front, back, rfl, rfl⟩ := isBoundary_iff_append.1 hbound
    rw [skip, seek, from?, if_pos (by rw [byteSize_append]; exact Nat.le_add_right ..)]
  rw [hskip, Nat.max_eq_right hlands.le_stop]
  exact hlands

theorem nextBoundary_eq_seek (hbound : IsBoundary text offset) :
    nextBoundary text offset = seek (·.drop 1) text offset := by
  obtain ⟨front, back, rfl, rfl⟩ := isBoundary_iff_append.1 hbound
  rw [seek_of_isBoundary _ hbound, dropBytes_byteSize_append, nextBoundary, ofRest,
    ← List.head?_drop, drop_utf8]
  cases back with
  | nil => simp [utf8_nil]
  | cons c s =>
      obtain ⟨byte, tail, hbytes, hwidth⟩ := exists_charWidth c
      have hsize := String.length_utf8EncodeChar c
      rw [hbytes, ← hwidth] at hsize
      rw [utf8_cons, hbytes, List.cons_append, List.head?_cons]
      simp only [byteSize_append, byteSize_cons, List.drop_one, List.tail_cons]
      omega

/-- From between two characters of a text every scan comes to between two characters, not in front
of where it began and not behind the text, and it comes to where the search among the bytes does
that asks for no character. -/
theorem lands_of_isBoundary (hbound : IsBoundary text offset) :
    (∀ set : AsciiSet,
      Lands (·.dropWhile set.hasByte) text offset (skipWhile set text offset) ∧
      Lands (·.dropWhile (!set.hasByte ·)) text offset (skipUntil set text offset) ∧
      Lands (ByteScan.word set) text offset (word set text offset)) ∧
    (∀ quote : Char, quote.toNat < 128 →
      (∀ escapes multiline, Lands (ByteScan.quoted quote.toUInt8 0 escapes multiline) text offset
        (quoted quote escapes multiline text offset)) ∧
      Lands (ByteScan.quoted quote.toUInt8 2 true true) text offset
        (tripleQuoted quote text offset)) ∧
    (∀ hashes, Lands (ByteScan.behind (0x22 :: List.replicate hashes 0x23)) text offset
      (seek (Quoted.hashedRest hashes) text offset)) ∧
    Lands (·.dropWhile (· != 0x0A)) text offset (line text offset) ∧
    (∀ closing, Lands (ByteScan.behind (utf8 closing)) text offset (block closing text offset)) ∧
    (∀ opening closing, Lands (ByteScan.nested (utf8 opening) (utf8 closing)) text offset
      (nestedBlock opening closing text offset)) ∧
    Lands ByteScan.character text offset (nextBoundary text offset) := by
  refine ⟨fun set => ⟨?_, ?_, ?_⟩, fun quote hquote => ⟨fun escapes multiline => ?_, ?_⟩,
    fun hashes => ?_, ?_, fun closing => ?_, fun opening closing => ?_, ?_⟩
  · exact lands_skip (ByteScan.encodes_dropWhile (represents_has set)) hbound
  · exact lands_skip (ByteScan.encodes_dropWhile (represents_has set).not) hbound
  · exact lands_skip (ByteScan.encodes_word set) hbound
  · exact lands_seek (ByteScan.encodes_rest hquote escapes multiline) hbound
  · exact lands_seek (ByteScan.encodes_tripleRest hquote) hbound
  · exact lands_seek (ByteScan.encodes_hashedRest hashes) hbound
  · exact lands_skip (ByteScan.encodes_dropWhile (represents_bne (by decide : '\n'.toNat < 128)))
      hbound
  · exact lands_skip (ByteScan.encodes_behind closing) hbound
  · exact lands_seek (ByteScan.encodes_nestedRest opening closing) hbound
  · rw [nextBoundary_eq_seek hbound]
    exact lands_seek ByteScan.encodes_character hbound

/-- A quote behind an escape, and markers that begin with the byte that another character begins
with. -/
theorem lands_behind_escape :
    let text := ['é', '\x5c', 'é', 'è', '\x22', '\x22', '\x22']
    IsBoundary text 2 ∧ '\x22'.toNat < 128 ∧
      Lands (ByteScan.quoted 0x22 0 true false) text 2 8 ∧
      Lands (ByteScan.quoted 0x22 2 true true) text 2 10 ∧
      Lands (ByteScan.nested (utf8 ['ê']) (utf8 ['è'])) text 2 7 := by
  intro text
  have hbound : IsBoundary text 2 := isBoundary_append ['é'] _
  have hquoted : quoted '\x22' true false text 2 = 8 := by decide +kernel
  have htriple : tripleQuoted '\x22' text 2 = 10 := by decide +kernel
  have hnested : nestedBlock ['ê'] ['è'] text 2 = 7 := by decide +kernel
  obtain ⟨-, hquotes, -, -, -, hcomments, -⟩ := lands_of_isBoundary hbound
  obtain ⟨hsingle, hthree⟩ := hquotes '\x22' (by decide)
  exact ⟨hbound, by decide, hquoted ▸ hsingle true false, htriple ▸ hthree,
    hnested ▸ hcomments ['ê'] ['è']⟩

end Offset

end Highlight
