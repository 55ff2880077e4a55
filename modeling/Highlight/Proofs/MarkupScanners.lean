import Highlight.Language.Html
import Highlight.Language.Markdown
import Highlight.Proofs.TemplateScanners

/-!
# Scanners of markup

A scanner of Markdown knows of a line what the lexer knows, so the two are in the same state. All
the work is in the readers. Two of them go on over several lines or levels by loops of their own,
and these pass the inside of a character byte by byte, where they meet nothing they are looking for.

A scanner of HTML hands the body of a script to another scanner, in a buffer that is cut off where
the body ends, and a lexer hands the text of the body to another lexer. So the relation has one for
the two inside of it. While a body is being read, the inner scanner and the inner lexer have the
same of the body in front of them, the outer ones have the rest behind it as well, and the inner
offsets are those of the outer buffer.
-/

namespace Highlight

variable {buffer : Buffer} {offset : Nat} {c : Char} {s : List Char}

theorem singleton_prefix_iff : [c] <+: s ↔ s.head? = some c := by
  rw [List.head?_eq_some_iff]
  constructor
  · rintro ⟨t, rfl⟩
    exact ⟨t, rfl⟩
  · rintro ⟨t, rfl⟩
    exact ⟨t, rfl⟩

theorem fromNewline_cons_of_ne (hc : c ≠ '\n') (s : List Char) :
    fromNewline (c :: s) = fromNewline s :=
  List.dropWhile_cons_of_pos (bne_iff_ne.2 hc)

theorem fromNewline_dropWhile {p : Char → Bool} (hp : p '\n' = false) (s : List Char) :
    fromNewline (s.dropWhile p) = fromNewline s := by
  induction s with
  | nil => rfl
  | cons c s ih =>
      cases hc : p c with
      | true =>
          have hne : c ≠ '\n' := fun heq => by rw [heq, hp] at hc; cases hc
          rw [List.dropWhile_cons_of_pos hc, ih, fromNewline_cons_of_ne hne]
      | false => rw [List.dropWhile_cons_of_neg (by rw [hc]; decide)]

namespace Markdown

theorem behindFencedBytes_append_of_plain (fence : List UInt8) {front : List UInt8}
    (h : ∀ byte ∈ front, byte ≠ 0x0A) (s : List UInt8) :
    behindFencedBytes fence (front ++ s) = behindFencedBytes fence s := by
  induction front with
  | nil => rfl
  | cons byte front ih =>
      obtain ⟨hbyte, hmore⟩ := List.forall_mem_cons.1 h
      rw [List.cons_append, behindFencedBytes, if_neg fun hline => hbyte hline.1]
      exact ih hmore

theorem behindFencedBytes_utf8 (fence s : List Char) :
    behindFencedBytes (utf8 fence) (utf8 s) = utf8 (behindFenced fence s) := by
  induction s with
  | nil => rfl
  | cons c s ih =>
      rw [behindFenced]
      by_cases hc : c = '\n'
      · subst hc
        have hline : (utf8 s).dropWhile (· != 0x0A) = utf8 (fromNewline s) :=
          (represents_bne (by decide : '\n'.toNat < 128)).dropWhile s
        rw [utf8_cons_of_ascii (by decide), behindFencedBytes, utf8_isPrefixOf_utf8, hline, ih]
        cases fence.isPrefixOf s <;> rfl
      · rw [if_neg fun hline => hc hline.1, utf8_cons, behindFencedBytes_append_of_plain, ih]
        exact fun byte hbyte => ne_of_mem_utf8EncodeChar (d := '\n') hbyte (by decide) hc

theorem encodes_behindFenced (fence : List Char) :
    Encodes (behindFenced fence) (behindFencedBytes (utf8 fence)) :=
  ⟨behindFenced_suffix fence, behindFencedBytes_utf8 fence⟩

/-- The line of the opening fence ends no block. -/
theorem behindFenced_fromNewline (fence s : List Char) :
    behindFenced fence (fromNewline s) = behindFenced fence s := by
  induction s with
  | nil => rfl
  | cons c s ih =>
      by_cases hc : c = '\n'
      · subst hc
        rfl
      · rw [fromNewline_cons_of_ne hc, ih, behindFenced, if_neg fun hline => hc hline.1]

theorem readFenced_eq (hc : c = '\x60' ∨ c = '~') (hs : buffer.At offset (c :: c :: c :: s)) :
    readFenced buffer offset =
      some ⟨.string, buffer.offsetOf (behindFenced [c, c, c] (c :: c :: s))⟩ := by
  have hascii : c.toNat < 128 := by rcases hc with rfl | rfl <;> decide
  have hne : c ≠ '\n' := by rcases hc with rfl | rfl <;> decide
  have hopening : (buffer.startsWith offset ['\x60', '\x60', '\x60'] ||
      buffer.startsWith offset ['~', '~', '~']) = true := by
    rw [hs.startsWith_eq, hs.startsWith_eq]
    rcases hc with rfl | rfl <;> rfl
  have hbehind := ((hs.tail hascii).tail hascii).tail hascii
  have hslice := hs.slice_eq (List.suffix_append [c, c, c] s)
  rw [← hbehind.eq_offsetOf] at hslice
  have hfence : buffer.slice offset (offset + 3) = [c, c, c] :=
    hslice.trans (before_append [c, c, c] s)
  have hline := hs.of_suffix (fromNewline_suffix _)
  simp only [readFenced, hopening, hfence, hs.line_eq, if_true,
    hline.seek_eq (encodes_behindFenced [c, c, c]), behindFenced_fromNewline]
  rw [behindFenced, if_neg fun h => hne h.1]

theorem follows_readFenced : Reader.Follows readFenced scanFenced := by
  intro buffer offset s hs
  by_cases hopening : ∃ c t, (c = '\x60' ∨ c = '~') ∧ s = c :: c :: c :: t
  · obtain ⟨c, t, hc, rfl⟩ := hopening
    have hopens : [c, c].isPrefixOf (c :: c :: t) = true :=
      List.isPrefixOf_iff_prefix.2 (List.prefix_append [c, c] t)
    rw [readFenced_eq hc hs, scanFenced, if_pos ⟨hc, hopens⟩]
    rfl
  · have hopens (c : Char) (hc : c = '\x60' ∨ c = '~') : ¬ [c, c, c].isPrefixOf s = true := by
      intro h
      obtain ⟨t, rfl⟩ := List.isPrefixOf_iff_prefix.1 h
      exact hopening ⟨c, t, hc, rfl⟩
    have hscan : scanFenced s = none := by
      unfold scanFenced
      split
      · rfl
      · next c t =>
          refine if_neg fun h => hopens c h.1 ?_
          obtain ⟨rest, rfl⟩ := List.isPrefixOf_iff_prefix.1 h.2
          exact List.isPrefixOf_iff_prefix.2 (List.prefix_append [c, c, c] rest)
    rw [readFenced, hs.startsWith_eq, hs.startsWith_eq, hscan]
    simp only [hopens '\x60' (.inl rfl), hopens '~' (.inr rfl)]
    rfl

theorem follows_readIndented : Reader.Follows readIndented scanIndented := by
  intro buffer offset s hs
  rw [readIndented, hs.startsWith_eq, hs.reads_eq (by decide), hs.line_eq]
  cases s with
  | nil => rfl
  | cons c s =>
      rw [scanIndented]
      by_cases htab : c = '\t'
      · subst htab
        simp [Match.inPlace, fromNewline_cons_of_ne]
      · by_cases hblank : c = ' '
        · subst hblank
          rw [fromNewline_cons_of_ne (by decide)]
          have hopens : [' ', ' ', ' ', ' '].isPrefixOf (' ' :: s) = [' ', ' ', ' '].isPrefixOf s :=
            Bool.true_and _
          cases hmore : [' ', ' ', ' '].isPrefixOf s <;> simp [hopens, hmore, Match.inPlace]
        · have hopens : ¬ [' ', ' ', ' ', ' '].isPrefixOf (c :: s) = true := fun h =>
            hblank (List.cons_prefix_cons.1 (List.isPrefixOf_iff_prefix.1 h)).1.symm
          simp [hopens, htab, hblank]

theorem atBlank_eq (s : List Char) : atBlank s = s.head?.any blanks.has := by
  cases s <;> rfl

theorem follows_readHeading : Reader.Follows readHeading scanHeading := by
  intro buffer offset s hs
  rw [readHeading, hs.reads_eq (by decide), hs.skipWhile_eq, AsciiSet.has_hash, hs.line_eq]
  cases s with
  | nil => rfl
  | cons c s =>
      rw [scanHeading]
      by_cases hc : c = '#'
      · subst hc
        have hrest := (hs.tail (by decide)).of_suffix (List.dropWhile_suffix (· == '#'))
        have hhashes : ('#' :: s).dropWhile (· == '#') = s.dropWhile (· == '#') :=
          List.dropWhile_cons_of_pos (by decide)
        have hline : fromNewline ('#' :: s) = fromNewline (s.dropWhile (· == '#')) :=
          (fromNewline_dropWhile (by decide) s).symm
        simp only [hhashes, hline, hrest.readsAny_eq, ← atBlank_eq, ne_eq, not_true, if_false]
        cases atBlank (s.dropWhile (· == '#')) <;> rfl
      · simp [hc]

theorem follows_readQuotation : Reader.Follows readQuotation scanQuotation := by
  intro buffer offset s hs
  rw [readQuotation, hs.reads_eq (by decide), hs.line_eq]
  cases s with
  | nil => rfl
  | cons c s =>
      rw [scanQuotation]
      by_cases hc : c = '>'
      · subst hc
        rw [fromNewline_cons_of_ne (by decide)]
        rfl
      · simp [hc]

theorem follows_readBullet : Reader.Follows readBullet scanBullet := by
  intro buffer offset s hs
  rw [readBullet, hs.readsAny_eq]
  cases s with
  | nil => rfl
  | cons c s =>
      rw [List.head?_cons, Option.any_some, scanBullet]
      cases hc : listMarkers.has c with
      | false => rfl
      | true =>
          have htail := hs.tail (listMarkers.ascii c hc)
          rw [htail.readsAny_eq, ← atBlank_eq, htail.eq_offsetOf]
          cases atBlank s <;> rfl

theorem follows_readOrdinal : Reader.Follows readOrdinal scanOrdinal := by
  intro buffer offset s hs
  rw [readOrdinal, hs.readsAny_eq, hs.skipWhile_eq]
  cases s with
  | nil => rfl
  | cons c s =>
      rw [List.head?_cons, Option.any_some, scanOrdinal]
      cases hc : AsciiSet.digits.has c with
      | false => rfl
      | true =>
          have hrest := (hs.tail (AsciiSet.digits.ascii c hc)).of_suffix
            (List.dropWhile_suffix AsciiSet.digits.has)
          simp only [List.dropWhile_cons_of_pos hc, hrest.reads_eq (by decide : '.'.toNat < 128)]
          cases hcons : s.dropWhile AsciiSet.digits.has with
          | nil => rfl
          | cons d t =>
              by_cases hd : d = '.'
              · subst hd
                rw [hcons] at hrest
                have htail := hrest.tail (by decide)
                rw [htail.readsAny_eq, ← atBlank_eq, htail.eq_offsetOf]
                cases hblank : atBlank t <;> simp [hblank, Match.inPlace]
              · simp [hd, Match.inPlace]

theorem follows_readRule : Reader.Follows readRule scanRule := by
  intro buffer offset s hs
  rw [readRule, hs.readsAny_eq]
  cases s with
  | nil => rfl
  | cons c s =>
      rw [List.head?_cons, Option.any_some, scanRule]
      cases hc : ruleMarkers.has c with
      | false => simp
      | true =>
          have hascii := ruleMarkers.ascii c hc
          have hsearch := ByteScan.encodes_dropWhile
            ((represents_beq hascii).or (represents_has blanks))
          have hmark : (c :: s).dropWhile (fun d => d == c || blanks.has d) =
              s.dropWhile fun d => d == c || blanks.has d :=
            List.dropWhile_cons_of_pos (by rw [beq_self_eq_true, Bool.true_or])
          have hstop := hs.seek_eq hsearch
          rw [hmark] at hstop
          have hsuffix := List.dropWhile_suffix (l := s) fun d => d == c || blanks.has d
          have hslice := hs.slice_eq (hsuffix.trans (List.suffix_cons c s))
          have hrest := (hs.tail hascii).of_suffix hsuffix
          rw [before_cons_dropWhile] at hslice
          simp only [hs.current_cons hascii, hstop, hslice,
            hrest.reads_eq (by decide : '\n'.toNat < 128), drop_length_takeWhile,
            List.count_cons_self, true_and, Bool.true_and]
          cases hcons : s.dropWhile fun d => d == c || blanks.has d with
          | nil => simp [Buffer.offsetOf_nil, Match.inPlace]
          | cons d t =>
              rw [hcons] at hrest
              have hne := Nat.ne_of_lt hrest.lt_length
              simp [hne, Match.inPlace]

theorem onLineStop_eq {closing : Char} (hclosing : closing.toNat < 128) (hs : buffer.At offset s) :
    onLineStop closing buffer offset = buffer.offsetOf (behindOnLine closing s) := by
  have hsearch := ByteScan.encodes_dropWhile
    ((represents_bne hclosing).and (represents_bne (by decide : '\n'.toNat < 128)))
  have hrest := hs.of_suffix (List.dropWhile_suffix fun c => c != closing && c != '\n')
  have hstop :
      buffer.seek (·.dropWhile fun byte => byte != closing.toUInt8 && byte != 0x0A) offset =
        buffer.offsetOf (s.dropWhile fun c => c != closing && c != '\n') :=
    hs.seek_eq hsearch
  simp only [onLineStop, hstop, hrest.reads_eq hclosing, behindOnLine]
  cases hcons : s.dropWhile fun c => c != closing && c != '\n' with
  | nil => rfl
  | cons c t =>
      rw [hcons] at hrest
      by_cases hc : c = closing
      · subst hc
        simp [(hrest.tail hclosing).eq_offsetOf]
      · simp [hc]

theorem follows_readCodeSpan : Reader.Follows readCodeSpan scanCodeSpan := by
  intro buffer offset s hs
  rw [readCodeSpan, hs.reads_eq (by decide)]
  cases s with
  | nil => rfl
  | cons c s =>
      rw [scanCodeSpan]
      by_cases hc : c = '\x60'
      · subst hc
        rw [onLineStop_eq (by decide) (hs.tail (by decide))]
        rfl
      · simp [hc]

theorem readEmphasis_eq (hc : c = '*' ∨ c = '_') (hs : buffer.At offset (c :: s)) :
    readEmphasis buffer offset = (scanEmphasis (c :: s)).map (Match.inPlace buffer) := by
  have hascii : c.toNat < 128 := by rcases hc with rfl | rfl <;> decide
  have hreads : (buffer.reads offset '*' || buffer.reads offset '_') = true := by
    rw [hs.reads_eq (by decide), hs.reads_eq (by decide)]
    rcases hc with rfl | rfl <;> rfl
  have hmark : (c :: s).dropWhile (· == c) = s.dropWhile (· == c) :=
    List.dropWhile_cons_of_pos (beq_self_eq_true c)
  have hstop := hs.seek_eq (ByteScan.encodes_dropWhile (represents_beq hascii))
  rw [hmark] at hstop
  have hsuffix := List.dropWhile_suffix (l := s) (· == c)
  have hrun : ∀ d ∈ c :: s.takeWhile (· == c), d.toNat < 128 := by
    refine List.forall_mem_cons.2 ⟨hascii, fun d hd => ?_⟩
    rw [eq_of_beq (@List.mem_takeWhile_imp _ (· == c) s d hd)]
    exact hascii
  have hsize : buffer.offsetOf (s.dropWhile (· == c)) - offset =
      (s.takeWhile (· == c)).length + 1 := by
    rw [hs.offsetOf_of_suffix (hsuffix.trans (List.suffix_cons c s)), before_cons_dropWhile,
      byteSize_of_ascii hrun, Nat.add_sub_cancel_left, List.length_cons]
  simp only [readEmphasis, hreads, hs.current_cons hascii, hstop, hsize, scanEmphasis, if_pos hc,
    drop_length_takeWhile, if_true]
  rcases (s.takeWhile (· == c)).length with _ | _ | _ | more
  · rfl
  · rfl
  · rfl
  · rfl

theorem follows_readEmphasis : Reader.Follows readEmphasis scanEmphasis := by
  intro buffer offset s hs
  cases s with
  | nil =>
      rw [readEmphasis, hs.reads_eq (by decide), hs.reads_eq (by decide)]
      rfl
  | cons c s =>
      by_cases hc : c = '*' ∨ c = '_'
      · exact readEmphasis_eq hc hs
      · rw [readEmphasis, hs.reads_eq (by decide), hs.reads_eq (by decide), scanEmphasis, if_neg hc]
        simp only [not_or] at hc
        simp [hc.1, hc.2]

theorem behindBracketsBytes_append_of_plain {depth : Nat} {front : List UInt8}
    (h : ∀ byte ∈ front, byte ≠ 0x5B ∧ byte ≠ 0x5D ∧ byte ≠ 0x0A) (s : List UInt8) :
    behindBracketsBytes (depth + 1) (front ++ s) = behindBracketsBytes (depth + 1) s := by
  induction front with
  | nil => rfl
  | cons byte front ih =>
      obtain ⟨⟨hopen, hclose, hline⟩, hmore⟩ := List.forall_mem_cons.1 h
      rw [List.cons_append, behindBracketsBytes, if_neg hopen, if_neg hclose, if_neg hline]
      exact ih hmore

theorem behindBracketsBytes_utf8 (depth : Nat) (s : List Char) :
    behindBracketsBytes depth (utf8 s) = (behindBrackets depth s).map id utf8 := by
  fun_induction behindBrackets depth s with
  | case1 => rw [behindBracketsBytes]; rfl
  | case2 => rfl
  | case3 depth s ih =>
      rw [utf8_cons_of_ascii (by decide), behindBracketsBytes]
      exact ih
  | case4 depth s _ ih =>
      rw [utf8_cons_of_ascii (by decide), behindBracketsBytes]
      exact ih
  | case5 depth s =>
      rw [utf8_cons_of_ascii (by decide), behindBracketsBytes]
      exact congrArg (Prod.mk _) (utf8_cons_of_ascii (by decide) s).symm
  | case6 depth c s hopen hclose hline ih =>
      rw [utf8_cons, behindBracketsBytes_append_of_plain, ih]
      intro byte hbyte
      have hne {d : Char} := @ne_of_mem_utf8EncodeChar c d byte hbyte
      exact ⟨hne (d := '[') (by decide) hopen, hne (d := ']') (by decide) hclose,
        hne (d := '\n') (by decide) hline⟩

theorem linkStop_eq (hs : buffer.At offset s) :
    linkStop buffer offset = buffer.offsetOf (behindLink s) := by
  have hrest := hs.of_suffix (behindBrackets_suffix 1 s)
  rw [linkStop, hs.drop_bytes, behindBracketsBytes_utf8, behindLink]
  rcases hbehind : behindBrackets 1 s with ⟨depth, rest⟩
  rw [hbehind] at hrest
  have hstop : buffer.length - (utf8 rest).length = buffer.offsetOf rest := by
    rw [length_utf8]
    rfl
  simp only [Prod.map, id, hstop, hrest.reads_eq (by decide : '('.toNat < 128),
    hrest.reads_eq (by decide : '['.toNat < 128)]
  cases depth with
  | succ depth => rfl
  | zero =>
      cases rest with
      | nil => rfl
      | cons c t =>
          by_cases hparen : c = '('
          · subst hparen
            exact onLineStop_eq (by decide) (hrest.tail (by decide))
          · by_cases hbracket : c = '['
            · subst hbracket
              exact onLineStop_eq (by decide) (hrest.tail (by decide))
            · have htarget : behindTarget (c :: t) = c :: t := by
                unfold behindTarget
                split
                · next heq => cases heq; exact absurd rfl hparen
                · next heq => cases heq; exact absurd rfl hbracket
                · rfl
              simp [htarget, hparen, hbracket]

theorem follows_readLink : Reader.Follows readLink scanLink := by
  intro buffer offset s hs
  rw [readLink, hs.reads_eq (by decide)]
  cases s with
  | nil => rfl
  | cons c s =>
      rw [scanLink]
      by_cases hc : c = '['
      · subst hc
        rw [linkStop_eq (hs.tail (by decide))]
        rfl
      · simp [hc]

theorem imageStop_eq (hs : buffer.At offset s) :
    imageStop buffer offset = buffer.offsetOf (behindImage s) := by
  have hsearch := ByteScan.encodes_dropWhile
    ((represents_bne (by decide : ']'.toNat < 128)).and
      (represents_bne (by decide : '\n'.toNat < 128)))
  have hstop : buffer.seek (·.dropWhile fun byte => byte != 0x5D && byte != 0x0A) offset =
      buffer.offsetOf (s.dropWhile fun c => c != ']' && c != '\n') :=
    hs.seek_eq hsearch
  have hrest := hs.of_suffix (List.dropWhile_suffix fun c => c != ']' && c != '\n')
  simp only [imageStop, hstop, hrest.reads_eq (by decide : ']'.toNat < 128), behindImage]
  cases hcons : s.dropWhile fun c => c != ']' && c != '\n' with
  | nil => rfl
  | cons c t =>
      rw [hcons] at hrest
      by_cases hc : c = ']'
      · subst hc
        have htail := hrest.tail (by decide)
        rw [htail.reads_eq (by decide)]
        cases t with
        | nil => simp [htail.eq_offsetOf]
        | cons d t =>
            by_cases hd : d = '('
            · subst hd
              simpa using onLineStop_eq (by decide : ')'.toNat < 128) (htail.tail (by decide))
            · simp [hd, htail.eq_offsetOf]
      · simp [hc]

theorem follows_readImage : Reader.Follows readImage scanImage := by
  intro buffer offset s hs
  rw [readImage, hs.startsWith_eq]
  by_cases hprefix : ['!', '['] <+: s
  · obtain ⟨t, rfl⟩ := hprefix
    rw [imageStop_eq ((hs.tail (by decide)).tail (by decide))]
    rfl
  · have hscan : scanImage s = none := by
      unfold scanImage
      split
      · exact absurd ⟨_, rfl⟩ hprefix
      · rfl
    rw [if_neg (mt List.isPrefixOf_iff_prefix.1 hprefix), hscan]
    rfl

theorem follows_readers (lineStart : Bool) :
    Reader.Follows (.firstOf (if lineStart then blockReaders ++ inlineReaders else inlineReaders))
      (.firstOf (if lineStart then blockRules ++ inlineRules else inlineRules)) := by
  have hinline : List.Forall₂ Reader.Follows inlineReaders inlineRules :=
    .cons follows_readCodeSpan <| .cons follows_readEmphasis <| .cons follows_readLink <|
    .cons follows_readImage .nil
  have hblock : List.Forall₂ Reader.Follows (blockReaders ++ inlineReaders)
      (blockRules ++ inlineRules) :=
    .cons follows_readFenced <| .cons follows_readIndented <| .cons follows_readHeading <|
    .cons follows_readQuotation <| .cons follows_readBullet <| .cons follows_readOrdinal <|
    .cons follows_readRule hinline
  cases lineStart with
  | true => exact Reader.follows_firstOf hblock
  | false => exact Reader.follows_firstOf hinline

theorem textAt_eq (lineStart : Bool) (hs : buffer.At offset (c :: s)) :
    textAt lineStart buffer offset =
      let step := stepText lineStart c s
      ⟨step.kind, buffer.offsetOf step.rest, step.state⟩ := by
  simp only [textAt, hs.skipUntil_eq, stepText]
  cases hc : textStop.has c with
  | true =>
      have hrest : (c :: s).dropWhile (!textStop.has ·) = c :: s :=
        List.dropWhile_cons_of_neg (by rw [hc]; decide)
      rw [hrest, if_pos hs.eq_offsetOf.symm, if_pos rfl, hs.next_cons]
  | false =>
      have hrest : (c :: s).dropWhile (!textStop.has ·) = s.dropWhile (!textStop.has ·) :=
        List.dropWhile_cons_of_pos (by rw [hc]; rfl)
      have hsuffix := List.dropWhile_suffix (l := s) (!textStop.has ·)
      rw [hrest, if_neg (Nat.ne_of_gt (hs.lt_offsetOf hsuffix)),
        hs.slice_eq (hsuffix.trans (List.suffix_cons c s)), before_cons_dropWhile,
        if_neg Bool.false_ne_true, drop_length_takeWhile]
      split <;> rfl

theorem next_eq (lineStart : Bool) (hs : buffer.At offset (c :: s)) :
    next buffer offset lineStart =
      let step := step lineStart c s
      some ⟨step.kind, buffer.offsetOf step.rest, step.state⟩ := by
  have hfound := follows_readers lineStart buffer offset _ hs
  rw [next, if_neg (Nat.not_le.2 hs.lt_length), hs.reads_eq (by decide), step]
  by_cases hc : c = '\n'
  · subst hc
    rw [(hs.tail (by decide)).eq_offsetOf]
    rfl
  · have hreads : ¬ ((c :: s).head? == some '\n') = true := by simpa using hc
    rw [if_neg hreads, if_neg hc]
    dsimp only
    rw [hfound]
    cases Rule.firstOf (if lineStart then blockRules ++ inlineRules else inlineRules) (c :: s) with
    | some found => rfl
    | none => exact congrArg some (textAt_eq lineStart hs)

theorem simulates : scanner.Simulates lexer fun _ _ _ place state => place = state where
  start _ _ _ _ := rfl
  next_nil buffer offset lineStart _ hs _ := if_pos (hs.length_le_iff.2 rfl)
  next_cons := by
    rintro buffer offset c s lineStart _ hs rfl
    exact ⟨_, next_eq lineStart hs, rfl⟩

end Markdown

namespace Html

/-- A step in a script is one of the lexer for scripts, which never sees what is behind the body. -/
theorem step_script (js : JavaScript.State) (b : Char) (body rest : List Char) :
    lexer.step (.script js (b :: body)) b (body ++ rest) =
      ⟨(JavaScript.lexer.step js b body).kind, (JavaScript.lexer.step js b body).rest ++ rest,
        .script (JavaScript.lexer.step js b body).state
          (JavaScript.lexer.step js b body).rest⟩ := by
  rw [← drop_append_of_suffix (JavaScript.lexer.rest_suffix js b body)]
  rfl

/-- The name of a tag decides what its body is, if it opens an element. -/
theorem stepTagName_eq (closing : Bool) {c : Char} (s : List Char) :
    stepTagName closing c s = ⟨.nameTag, behindWord .markupName s,
      .tag (if closing then none else RawText.ofTag? (before (c :: s) (behindWord .markupName s)))
        false⟩ := by
  have hname : before (c :: s) (behindWord .markupName s) = c :: wordOf .markupName s :=
    before_cons_dropWhile ..
  rw [stepTagName, hname]

/-! ## Where a body ends

The body of a script or a style sheet goes on to its closing tag, whose letters may be in either
case. The search for it compares bytes in lower case. The byte of a longer character has no other
case, and none of them is in the tag, so the search comes to where the tag begins among the
characters.
-/

theorem lower_toUInt8 (hc : c.toNat < 128) :
    ByteScan.lower c.toUInt8 = c.toLower.toUInt8 ∧ c.toLower.toNat < 128 := by
  have hall : ∀ n < 128, ByteScan.lower (Char.ofNat n).toUInt8 = (Char.ofNat n).toLower.toUInt8 ∧
      (Char.ofNat n).toLower.toNat < 128 := by
    decide
  have hchar := hall c.toNat hc
  rw [Char.ofNat_toNat] at hchar
  exact hchar

/-- Only ASCII letters have another case. -/
theorem lower_of_not_ascii {byte : UInt8} (h : 128 ≤ byte.toNat) : ByteScan.lower byte = byte := by
  refine if_neg fun hletter => ?_
  have hle : byte.toNat ≤ 0x5A := UInt8.le_iff_toNat_le.1 hletter.2
  omega

theorem toLower_of_not_ascii (hc : ¬ c.toNat < 128) : c.toLower = c := by
  refine dif_neg fun hletter => ?_
  have hle := UInt32.le_iff_toNat_le.1 hletter.2
  exact hc (Nat.lt_of_le_of_lt hle (by decide))

/-- Characters of ASCII are the same in lower case if their bytes are. -/
theorem lower_beq_lower {m : Char} (hm : m.toNat < 128) (hc : c.toNat < 128) :
    (ByteScan.lower c.toUInt8 == ByteScan.lower m.toUInt8) = (m.toLower == c.toLower) := by
  obtain ⟨hlower, hascii⟩ := lower_toUInt8 hm
  obtain ⟨hlower', hascii'⟩ := lower_toUInt8 hc
  rw [hlower, hlower', Bool.eq_iff_iff, beq_iff_eq, beq_iff_eq]
  constructor
  · intro heq
    have hnat := congrArg UInt8.toNat heq
    rw [toNat_toUInt8_of_ascii hascii, toNat_toUInt8_of_ascii hascii'] at hnat
    exact (Char.toNat_inj.1 hnat).symm
  · exact fun heq => congrArg Char.toUInt8 heq.symm

theorem startsIgnoringCase_cons (m byte : UInt8) (marker s : List UInt8) :
    ByteScan.startsIgnoringCase (m :: marker) (byte :: s) =
      (ByteScan.lower byte == ByteScan.lower m && ByteScan.startsIgnoringCase marker s) :=
  rfl

/-- A character that is not of ASCII begins with a byte that is none of a marker. -/
theorem startsIgnoringCase_of_not_ascii {m byte : UInt8} (hm : (ByteScan.lower m).toNat < 128)
    (hbyte : 128 ≤ byte.toNat) (marker s : List UInt8) :
    ByteScan.startsIgnoringCase (m :: marker) (byte :: s) = false := by
  have hne : ByteScan.lower byte ≠ ByteScan.lower m := by
    rw [lower_of_not_ascii hbyte]
    intro heq
    rw [heq] at hbyte
    omega
  rw [startsIgnoringCase_cons, beq_false_of_ne hne, Bool.false_and]

theorem toNat_lower_lt {m : Char} (hm : m.toNat < 128) :
    (ByteScan.lower m.toUInt8).toNat < 128 := by
  obtain ⟨hlower, hascii⟩ := lower_toUInt8 hm
  rw [hlower, toNat_toUInt8_of_ascii hascii]
  exact hascii

theorem startsIgnoringCase_utf8 {marker : List Char} (hmarker : ∀ m ∈ marker, m.toNat < 128)
    (s : List Char) :
    ByteScan.startsIgnoringCase (utf8 marker) (utf8 s) = startsIgnoringCase marker s := by
  induction marker generalizing s with
  | nil => rfl
  | cons m marker ih =>
      obtain ⟨hm, hmore⟩ := List.forall_mem_cons.1 hmarker
      cases s with
      | nil =>
          rw [utf8_cons_of_ascii hm]
          rfl
      | cons c s =>
          rw [startsIgnoringCase, ← ih hmore, utf8_cons_of_ascii hm]
          by_cases hc : c.toNat < 128
          · rw [utf8_cons_of_ascii hc, startsIgnoringCase_cons, lower_beq_lower hm hc]
          · obtain ⟨byte, tail, hbytes, -, hall⟩ := exists_utf8EncodeChar_of_not_ascii hc
            have hascii := (lower_toUInt8 hm).2
            have hne : m.toLower ≠ c.toLower := by
              rw [toLower_of_not_ascii hc]
              exact fun heq => hc (heq ▸ hascii)
            rw [utf8_cons, hbytes, List.cons_append,
              startsIgnoringCase_of_not_ascii (toNat_lower_lt hm) (hall byte List.mem_cons_self),
              beq_false_of_ne hne, Bool.false_and]

/-- What is behind the body at the front of a text. -/
def RawText.fromClosing (raw : RawText) : List Char → List Char
  | [] => []
  | c :: s => if startsIgnoringCase raw.closing (c :: s) then c :: s else raw.fromClosing s

theorem RawText.body_append_fromClosing (raw : RawText) (s : List Char) :
    raw.body s ++ raw.fromClosing s = s := by
  induction s with
  | nil => rfl
  | cons c s ih =>
      rw [RawText.body, RawText.fromClosing]
      split
      · rfl
      · exact congrArg (c :: ·) ih

theorem RawText.ascii_closing (raw : RawText) : ∀ c ∈ raw.closing, c.toNat < 128 := by
  cases raw <;> decide

/-- The inside of a character is passed byte by byte, and no closing tag begins there. -/
theorem RawText.fromClosingBytes_append (raw : RawText) {front : List UInt8}
    (h : ∀ byte ∈ front, 128 ≤ byte.toNat) (s : List UInt8) :
    fromClosingBytes (utf8 raw.closing) (front ++ s) = fromClosingBytes (utf8 raw.closing) s := by
  induction front with
  | nil => rfl
  | cons byte front ih =>
      obtain ⟨hbyte, hmore⟩ := List.forall_mem_cons.1 h
      have hclosing :
          ByteScan.startsIgnoringCase (utf8 raw.closing) (byte :: (front ++ s)) = false :=
        startsIgnoringCase_of_not_ascii (toNat_lower_lt (by decide : '<'.toNat < 128)) hbyte _ _
      rw [List.cons_append, fromClosingBytes, hclosing]
      exact ih hmore

theorem RawText.fromClosingBytes_utf8 (raw : RawText) (s : List Char) :
    fromClosingBytes (utf8 raw.closing) (utf8 s) = utf8 (raw.fromClosing s) := by
  induction s with
  | nil => rfl
  | cons c s ih =>
      have hstart := startsIgnoringCase_utf8 raw.ascii_closing (c :: s)
      rw [RawText.fromClosing]
      by_cases hc : c.toNat < 128
      · rw [utf8_cons_of_ascii hc] at hstart ⊢
        rw [fromClosingBytes, hstart]
        split
        · exact (utf8_cons_of_ascii hc s).symm
        · exact ih
      · obtain ⟨byte, tail, hbytes, -, hall⟩ := exists_utf8EncodeChar_of_not_ascii hc
        have hnone : startsIgnoringCase raw.closing (c :: s) = false := by
          rw [← hstart, utf8_cons, hbytes, List.cons_append]
          exact startsIgnoringCase_of_not_ascii (toNat_lower_lt (by decide : '<'.toNat < 128))
            (hall byte List.mem_cons_self) _ _
        rw [hnone, if_neg Bool.false_ne_true, utf8_cons, hbytes,
          raw.fromClosingBytes_append hall, ih]

theorem RawText.bodyStop_eq (raw : RawText) (hs : buffer.At offset s) :
    raw.bodyStop buffer offset = buffer.offsetOf (raw.fromClosing s) :=
  hs.seek_eq ⟨fun s => ⟨raw.body s, raw.body_append_fromClosing s⟩, raw.fromClosingBytes_utf8⟩

/-! ## Scans in markup

One lemma for each place says that what is found there is what a step of the lexer takes, and that
both stand at the same place behind it. In a script that is the step of another lexer, which never
sees what is behind the body; a script with nothing left of its body is content.
-/

theorem startsIgnoringCase_eq {marker : List Char} (hmarker : ∀ m ∈ marker, m.toNat < 128)
    (hs : buffer.At offset s) :
    buffer.startsIgnoringCase offset marker = startsIgnoringCase marker s := by
  rw [Buffer.startsIgnoringCase, hs.drop_bytes, startsIgnoringCase_utf8 hmarker]

theorem follows_readComment : Reader.Follows readComment scanComment := by
  intro buffer offset s hs
  rw [readComment, hs.startsWith_eq, scanComment, ← List.isSome_isPrefixOf?_eq_isPrefixOf]
  cases hbody : "<!--".toList.isPrefixOf? s with
  | none => rfl
  | some body =>
      have hbehind : buffer.At (offset + 4) body := hs.isPrefixOf? hbody
      rw [hbehind.behind_eq]
      rfl

theorem follows_readCharacterData : Reader.Follows readCharacterData scanCharacterData := by
  intro buffer offset s hs
  rw [readCharacterData, hs.startsWith_eq, scanCharacterData,
    ← List.isSome_isPrefixOf?_eq_isPrefixOf]
  cases hbody : "<![CDATA[".toList.isPrefixOf? s with
  | none => rfl
  | some body =>
      have hbehind : buffer.At (offset + 9) body := hs.isPrefixOf? hbody
      rw [hbehind.behind_eq]
      rfl

/-- What opens a tag is no letter in another case. -/
theorem eq_of_toLower_eq_mark (h : '<'.toLower = c.toLower) : c = '<' := by
  have hall : ∀ n < 128, '<'.toLower = (Char.ofNat n).toLower → Char.ofNat n = '<' := by decide
  by_cases hc : c.toNat < 128
  · have hchar := hall c.toNat hc
    rw [Char.ofNat_toNat] at hchar
    exact hchar h
  · rw [toLower_of_not_ascii hc] at h
    exact h.symm

theorem follows_readDeclaration : Reader.Follows readDeclaration scanDeclaration := by
  intro buffer offset s hs
  have hletters : "<!DOCTYPE".toList = '<' :: "!DOCTYPE".toList := by decide
  rw [readDeclaration, startsIgnoringCase_eq (by decide) hs, hs.startsWith_eq, hs.behind_eq,
    hletters]
  cases s with
  | nil => rfl
  | cons c s =>
      rw [scanDeclaration, startsIgnoringCase]
      by_cases hc : c = '<'
      · subst hc
        have hbehind : behind ['>'] ('<' :: s) = behind ['>'] s := rfl
        have hmark : ['<', '?'].isPrefixOf ('<' :: s) = true ↔ s.head? = some '?' := by
          rw [List.isPrefixOf_iff_prefix, List.cons_prefix_cons, singleton_prefix_iff]
          exact and_iff_right rfl
        rw [hbehind, beq_self_eq_true, Bool.true_and]
        simp only [Bool.or_eq_true, hmark, true_and]
        split <;> rfl
      · have hlower : ('<'.toLower == c.toLower) = false :=
          beq_false_of_ne fun heq => hc (eq_of_toLower_eq_mark heq)
        have hmark : ['<', '?'].isPrefixOf (c :: s) = false :=
          Bool.eq_false_iff.2 fun h =>
            hc (List.cons_prefix_cons.1 (List.isPrefixOf_iff_prefix.1 h)).1.symm
        have hnone : ¬ (c = '<' ∧
            (startsIgnoringCase "!DOCTYPE".toList s = true ∨ s.head? = some '?')) := fun h => hc h.1
        rw [hlower, hmark, if_neg hnone]
        rfl

theorem length_lt_of_behindEntity? {rest : List Char} (h : behindEntity? s = some rest) :
    rest.length < s.length := by
  have hradix := (behindRadix_suffix s).length_le
  simp only [behindEntity?] at h
  split at h
  · next hname =>
      cases h
      rw [List.length_drop]
      omega
  · cases h

theorem at_behindRadix (hs : buffer.At offset s) :
    buffer.At
      (if !buffer.reads offset '#' then offset
        else if buffer.reads (offset + 1) 'x' || buffer.reads (offset + 1) 'X' then offset + 2
        else offset + 1)
      (behindRadix s) := by
  rw [hs.reads_eq (by decide)]
  cases s with
  | nil => exact hs
  | cons c s =>
      by_cases hc : c = '#'
      · subst hc
        have htail := hs.tail (by decide)
        rw [htail.reads_eq (by decide), htail.reads_eq (by decide)]
        cases s with
        | nil => exact htail
        | cons d s =>
            by_cases hlower : d = 'x'
            · subst hlower
              exact htail.tail (by decide)
            · by_cases hupper : d = 'X'
              · subst hupper
                exact htail.tail (by decide)
              · have hradix : behindRadix ('#' :: d :: s) = d :: s := by
                  unfold behindRadix
                  split
                  · next heq => cases heq; exact absurd rfl hlower
                  · next heq => cases heq; exact absurd rfl hupper
                  · next heq => cases heq; rfl
                  · next h => exact absurd rfl (h _)
                simpa [hradix, hlower, hupper] using htail
      · have hradix : behindRadix (c :: s) = c :: s := by
          unfold behindRadix
          split
          · next heq => cases heq; exact absurd rfl hc
          · next heq => cases heq; exact absurd rfl hc
          · next heq => cases heq; exact absurd rfl hc
          · rfl
        simpa [hradix, hc] using hs

theorem entityStop_eq (hs : buffer.At offset ('&' :: s)) :
    entityStop buffer offset = (behindEntity? s).elim (offset + 1) buffer.offsetOf := by
  have htail := hs.tail (by decide)
  have hname : (if !buffer.reads (offset + 1) '#' then offset + 1
      else if buffer.reads (offset + 2) 'x' || buffer.reads (offset + 2) 'X' then offset + 3
      else offset + 2) = buffer.offsetOf (behindRadix s) :=
    (at_behindRadix htail).eq_offsetOf
  have hsuffix := List.dropWhile_suffix (l := behindRadix s) entityName.has
  have hradix := htail.of_suffix (behindRadix_suffix s)
  have hrest := hradix.of_suffix hsuffix
  simp only [entityStop, hname, hradix.skipWhile_eq, hradix.lt_offsetOf_iff hsuffix,
    hrest.reads_eq (by decide : ';'.toNat < 128), beq_iff_eq, behindEntity?]
  split
  · next hentity =>
      obtain ⟨t, ht⟩ := List.head?_eq_some_iff.1 hentity.2
      rw [ht] at hrest ⊢
      exact (hrest.tail (by decide)).eq_offsetOf
  · rfl

theorem follows_readEntity : Reader.Follows readEntity scanEntity := by
  intro buffer offset s hs
  rw [readEntity, hs.reads_eq (by decide)]
  cases s with
  | nil => rfl
  | cons c s =>
      rw [scanEntity]
      by_cases hc : c = '&'
      · subst hc
        have htail := hs.tail (by decide)
        rw [entityStop_eq hs]
        cases hentity : behindEntity? s with
        | none => simp [Match.inPlace, ← htail.eq_offsetOf]
        | some rest =>
            have hlt := (htail.lt_offsetOf_iff (behindEntity?_suffix hentity)).2
              (length_lt_of_behindEntity? hentity)
            simp [Match.inPlace, hlt]
      · simp [hc]

/-- Whether a scan in place stands where a scan of the text does. At the name of a tag is a letter.
In the body of a script both scans for scripts stand at the same place, the one in a buffer that
ends with the body and the other in the body, and behind it both have the same left. -/
inductive Same (buffer : Buffer) : Nat → List Char → Place → State → Prop where
  | content {offset : Nat} {s : List Char} : Same buffer offset s .content .content
  | tagName {offset : Nat} {s : List Char} (closing : Bool)
      (h : ∀ c ∈ s.head?, AsciiSet.letters.has c = true) :
      Same buffer offset s (.tagName closing) (.tagName closing)
  | tag {offset : Nat} {s : List Char} (raw : Option RawText) (valueNext : Bool) :
      Same buffer offset s (.tag raw valueNext) (.tag raw valueNext)
  | script {offset : Nat} {body : Buffer} {place : JavaScript.Place} {state : JavaScript.State}
      {text : List Char} (rest : List Char) (hbody : body.At offset text)
      (h : JavaScript.Same offset place state) :
      Same buffer offset (text ++ rest) (.script body place) (.script state text)
  | style {offset : Nat} {text rest : List Char} :
      Same buffer offset (text ++ rest) (.style (buffer.offsetOf rest)) (.style text)

/-- Whether what is found in place is what a step takes, and both stand at the same place behind
it. -/
structure Agrees (buffer : Buffer) (found : Found Place) (step : Step State) : Prop where
  kind : found.kind = step.kind
  stop : found.stop = buffer.offsetOf step.rest
  same : Same buffer found.stop step.rest found.state step.state

theorem same_ofBody (raw : Option RawText) (hs : buffer.At offset s) :
    Same buffer offset s (.ofBody raw buffer offset) (.ofBody raw s) := by
  cases raw with
  | none => exact .content
  | some raw =>
      have hsplit := raw.body_append_fromClosing s
      cases raw with
      | script =>
          have hbody := @Buffer.At.upTo buffer offset _ _ (hsplit.symm ▸ hs)
          have hsame :
              Same buffer offset (RawText.script.body s ++ RawText.script.fromClosing s) _ _ :=
            .script _ hbody (JavaScript.simulates.start _ _ _ hbody)
          rw [hsplit] at hsame
          rw [Place.ofBody, RawText.bodyStop_eq _ hs]
          exact hsame
      | style =>
          have hsame :
              Same buffer offset (RawText.style.body s ++ RawText.style.fromClosing s) _ _ :=
            .style
          rw [hsplit] at hsame
          rw [Place.ofBody, RawText.bodyStop_eq _ hs]
          exact hsame

theorem agrees_tagOpen (hs : buffer.At offset ('<' :: s)) :
    Agrees buffer (tagOpenAt buffer offset) (stepTagOpen s) := by
  have htail := hs.tail (by decide)
  have hname : buffer.At (if (behindSlash s).1 then offset + 2 else offset + 1) (behindSlash s).2 ∧
      buffer.reads (offset + 1) '/' = (behindSlash s).1 := by
    rw [htail.reads_eq (by decide)]
    cases s with
    | nil => exact ⟨htail, rfl⟩
    | cons c s =>
        by_cases hc : c = '/'
        · subst hc
          exact ⟨htail.tail (by decide), rfl⟩
        · simpa [behindSlash, hc] using htail
  obtain ⟨hname, hslash⟩ := hname
  simp only [tagOpenAt, stepTagOpen, hslash, hname.readsAny_eq]
  split
  · next hletter =>
      refine ⟨rfl, hname.eq_offsetOf, .tagName _ fun c hc => ?_⟩
      rw [Option.mem_def.1 hc] at hletter
      exact hletter
  · exact ⟨rfl, hname.eq_offsetOf, .content⟩

theorem textAt_eq (hmark : c ≠ '<') (hentity : c ≠ '&') (hs : buffer.At offset (c :: s)) :
    textAt buffer offset = (scanText c s).inPlace buffer := by
  have hsearch := ByteScan.encodes_dropWhile
    ((represents_bne (by decide : '<'.toNat < 128)).and
      (represents_bne (by decide : '&'.toNat < 128)))
  have hc : (c != '<' && c != '&') = true := by simp [hmark, hentity]
  have hdrop : (c :: s).dropWhile (fun d => d != '<' && d != '&') =
      s.dropWhile fun d => d != '<' && d != '&' :=
    List.dropWhile_cons_of_pos hc
  have hstop : buffer.seek (·.dropWhile fun byte => byte != 0x3C && byte != 0x26) offset =
      buffer.offsetOf ((c :: s).dropWhile fun d => d != '<' && d != '&') :=
    hs.seek_eq hsearch
  have hsuffix := List.dropWhile_suffix (l := s) fun d => d != '<' && d != '&'
  simp only [textAt, hstop, hdrop, hs.slice_eq (hsuffix.trans (List.suffix_cons c s)),
    before_cons_dropWhile, scanText, drop_length_takeWhile]
  rfl

theorem agrees_content (hs : buffer.At offset (c :: s)) :
    Agrees buffer (contentAt buffer offset) (stepContent c s) := by
  have hreaders : Reader.Follows (Reader.firstOf contentReaders) (Rule.firstOf contentRules) :=
    Reader.follows_firstOf <| .cons follows_readComment <| .cons follows_readDeclaration <|
      .cons follows_readCharacterData <| .cons follows_readEntity .nil
  rw [contentAt, hreaders buffer offset _ hs, stepContent, hs.reads_eq (by decide)]
  cases hfound : Rule.firstOf contentRules (c :: s) with
  | some found => exact ⟨rfl, rfl, .content⟩
  | none =>
      by_cases hmark : c = '<'
      · subst hmark
        exact agrees_tagOpen hs
      · have hentity : c ≠ '&' := by
          rintro rfl
          have hnone := List.findSome?_eq_none_iff.1 hfound scanEntity (by simp [contentRules])
          rw [scanEntity, if_neg (not_not_intro rfl)] at hnone
          split at hnone <;> cases hnone
        have hreads : ¬ ((c :: s).head? == some '<') = true := by simpa using hmark
        dsimp only [Option.map_none]
        rw [if_neg hreads, if_neg hmark, textAt_eq hmark hentity hs]
        exact ⟨rfl, rfl, .content⟩

theorem continuesWord_of_members {start set : AsciiSet} (h : ∀ d ∈ start.members, set.has d = true)
    (hc : start.has c = true) : continuesWord set c = true := by
  rw [continuesWord, if_pos (start.ascii c hc)]
  exact h c (AsciiSet.mem_members.2 hc)

theorem agrees_tagName (closing : Bool) (hletter : AsciiSet.letters.has c = true)
    (hs : buffer.At offset (c :: s)) :
    Agrees buffer (tagNameAt closing buffer offset) (stepTagName closing c s) := by
  have hword : continuesWord .markupName c = true :=
    continuesWord_of_members (by decide) hletter
  simp only [tagNameAt, hs.word_eq, behindWord_cons hword,
    hs.slice_eq ((behindWord_suffix .markupName s).trans (List.suffix_cons c s)), stepTagName_eq]
  exact ⟨rfl, rfl, .tag _ _⟩

theorem agrees_tag (raw : Option RawText) (valueNext : Bool) (hs : buffer.At offset (c :: s)) :
    Agrees buffer (tagAt raw valueNext buffer offset) (stepTag raw valueNext c s) := by
  have hset (set : AsciiSet) : buffer.readsAny offset set = set.has c := hs.readsAny_eq set
  have hmark {d : Char} (hd : d.toNat < 128) : buffer.reads offset d = true ↔ c = d := by
    rw [hs.reads_eq hd, List.head?_cons, beq_iff_eq, Option.some_inj]
  have hempty : buffer.startsWith offset ['/', '>'] = true ↔ c = '/' ∧ s.head? = some '>' := by
    rw [hs.startsWith_eq, List.isPrefixOf_iff_prefix, List.cons_prefix_cons, singleton_prefix_iff]
    exact and_congr_left' eq_comm
  have hquote : (buffer.current offset = '\x22' ∨ buffer.current offset = '\x27') ↔
      (c = '\x22' ∨ c = '\x27') :=
    or_congr (hs.current_eq_iff (by decide) (by decide)) (hs.current_eq_iff (by decide) (by decide))
  simp only [tagAt, stepTag, hset, hmark (by decide : '>'.toNat < 128), hempty, hquote,
    hmark (by decide : '='.toNat < 128)]
  split
  · next hspace =>
      rw [hs.skipWhile_eq, List.dropWhile_cons_of_pos hspace]
      exact ⟨rfl, rfl, .tag _ _⟩
  split
  · next hc =>
      have htail := hs.tail (hc ▸ (by decide : '>'.toNat < 128))
      exact ⟨rfl, htail.eq_offsetOf, same_ofBody raw htail⟩
  split
  · next hc =>
      obtain ⟨rfl, hhead⟩ := hc
      obtain ⟨t, rfl⟩ := List.head?_eq_some_iff.1 hhead
      exact ⟨rfl, ((hs.tail (by decide)).tail (by decide)).eq_offsetOf, .content⟩
  split
  · next hc =>
      have hascii : c.toNat < 128 := by rcases hc with rfl | rfl <;> decide
      rw [hs.current_cons hascii, (hs.tail hascii).behind_eq]
      exact ⟨rfl, rfl, .tag _ _⟩
  split
  · next hname =>
      rw [hs.word_eq, behindWord_cons (continuesWord_of_members (by decide) hname.2)]
      exact ⟨rfl, rfl, .tag _ _⟩
  split
  · next hc =>
      exact ⟨rfl, (hs.tail (hc.2 ▸ (by decide : '='.toNat < 128))).eq_offsetOf, .tag _ _⟩
  · have hbehind := hs.of_suffix (List.suffix_cons c s)
    rw [hs.next_cons, hbehind.skipUntil_eq]
    exact ⟨rfl, rfl, .tag _ _⟩

/-- Both scans leave the same behind a body. -/
theorem offsetOf_append {body : Buffer} {text rest ending : List Char} (hbody : body.At offset text)
    (hs : buffer.At offset (text ++ rest)) (hending : ending <:+ text) :
    body.offsetOf ending = buffer.offsetOf (ending ++ rest) := by
  have hlonger : ending ++ rest <:+ text ++ rest := by
    obtain ⟨front, rfl⟩ := hending
    exact ⟨front, (List.append_assoc ..).symm⟩
  rw [hbody.offsetOf_of_suffix hending, hs.offsetOf_of_suffix hlonger,
    before_append_append hending]

/-- A script that has nothing left is content. -/
theorem next_script_nil {body : Buffer} {place : JavaScript.Place} {state : JavaScript.State}
    (hbody : body.At offset []) (h : JavaScript.Same offset place state) :
    next buffer offset (.script body place) = markupAt? buffer offset .content := by
  have hnone := JavaScript.simulates.next_nil body offset place state hbody h
  rw [next, hnone]

theorem markupAt?_nil (place : Place) (hs : buffer.At offset []) :
    markupAt? buffer offset place = none :=
  if_pos (hs.length_le_iff.2 rfl)

/-- A step of the scanner inside a body is a step of the scanner outside. -/
theorem exists_next_script {body : Buffer} {place : JavaScript.Place} {state : JavaScript.State}
    {text rest : List Char} (hs : buffer.At offset (c :: text ++ rest))
    (hbody : body.At offset (c :: text)) (h : JavaScript.Same offset place state) :
    ∃ found, next buffer offset (.script body place) = some found ∧
      Agrees buffer found (lexer.step (.script state (c :: text)) c (text ++ rest)) := by
  obtain ⟨place', hnext, hsame⟩ :=
    JavaScript.simulates.next_cons body offset c text place state hbody h
  have hsuffix := JavaScript.lexer.step_suffix_cons state c text
  refine ⟨_, by rw [next, hnext], ?_⟩
  rw [step_script]
  exact ⟨rfl, offsetOf_append hbody hs hsuffix, .script rest (hbody.of_suffix hsuffix) hsame⟩

theorem exists_next_style {text rest : List Char} (hs : buffer.At offset (c :: text ++ rest)) :
    ∃ found, next buffer offset (.style (buffer.offsetOf rest)) = some found ∧
      Agrees buffer found (lexer.step (.style (c :: text)) c (text ++ rest)) := by
  have hne : buffer.offsetOf rest ≠ offset := by
    rw [Ne, hs.offsetOf_eq_iff (List.suffix_append (c :: text) rest), List.self_eq_append_left]
    exact List.cons_ne_nil c text
  have hdrop : (text ++ rest).drop text.length = rest := List.drop_left
  refine ⟨⟨.text, buffer.offsetOf rest, .content⟩, ?_, rfl, ?_, .content⟩
  · show markupAt? buffer offset (.style _) = _
    rw [markupAt?, if_neg (Nat.not_le.2 hs.lt_length)]
    exact if_neg hne
  · exact congrArg buffer.offsetOf hdrop.symm

theorem exists_next {place : Place} {state : State} {t : List Char} (hs : buffer.At offset t)
    (h : Same buffer offset t place state) (heq : t = c :: s) :
    ∃ found, next buffer offset place = some found ∧
      Agrees buffer found (lexer.step state c s) := by
  have hlt : ¬ buffer.length ≤ offset := Nat.not_le.2 (heq ▸ hs).lt_length
  cases h with
  | content => exact ⟨_, if_neg hlt, agrees_content (heq ▸ hs)⟩
  | tagName closing hletter =>
      subst heq
      exact ⟨_, if_neg hlt, agrees_tagName closing (hletter c rfl) hs⟩
  | tag raw valueNext => exact ⟨_, if_neg hlt, agrees_tag raw valueNext (heq ▸ hs)⟩
  | @script body place js text rest hbody hsame =>
      cases text with
      | nil =>
          rw [next_script_nil hbody hsame]
          exact ⟨_, if_neg hlt, agrees_content (heq ▸ hs)⟩
      | cons b text =>
          rw [List.cons_append] at heq
          obtain ⟨rfl, rfl⟩ := List.cons.inj heq
          exact exists_next_script hs hbody hsame
  | @style text rest =>
      cases text with
      | nil =>
          refine ⟨contentAt buffer offset, ?_, agrees_content (heq ▸ hs)⟩
          show markupAt? buffer offset (.style _) = _
          rw [markupAt?, if_neg hlt]
          exact if_pos ((hs.offsetOf_eq_iff (List.suffix_append [] rest)).2 rfl)
      | cons b text =>
          rw [List.cons_append] at heq
          obtain ⟨rfl, rfl⟩ := List.cons.inj heq
          exact exists_next_style hs

theorem simulates : scanner.Simulates lexer Same where
  start _ _ _ _ := .content
  next_nil buffer offset place state hs h := by
    show next buffer offset place = none
    generalize heq : [] = t at hs h
    cases h with
    | content => exact markupAt?_nil .content (heq ▸ hs)
    | tagName closing _ => exact markupAt?_nil (.tagName closing) (heq ▸ hs)
    | tag raw valueNext => exact markupAt?_nil (.tag raw valueNext) (heq ▸ hs)
    | script rest hbody hsame =>
        have htext := (List.append_eq_nil_iff.1 heq.symm).1
        subst htext
        rw [next_script_nil hbody hsame]
        exact markupAt?_nil _ (heq ▸ hs)
    | style => exact markupAt?_nil (.style _) (heq ▸ hs)
  next_cons buffer offset c s place state hs h := by
    obtain ⟨⟨kind, stop, place'⟩, hnext, hkind, hstop, hsame⟩ := exists_next hs h rfl
    dsimp only at hkind hstop hsame
    rw [hkind, hstop] at hnext
    exact ⟨place', hnext, hstop ▸ hsame⟩

end Html

end Highlight
