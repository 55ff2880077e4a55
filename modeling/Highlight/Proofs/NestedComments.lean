import Highlight.Proofs.CharacterReading
import Highlight.Proofs.RustTokens

/-!
# Comments in comments

Where a block comment ends that may hold others is said best by recursion: a closing marker ends it,
an opening marker begins another comment that ends by the same rule, and reading goes on behind that
one. The scan has no recursion. It counts how many comments are open and jumps from one character
that could begin a marker to the next. What it does with a count is the same for every count: from
where a comment begins to where it ends, the scan takes one off the count. So the count need not be
known, and the induction is on the comment.

The recursion is told of bytes, and the scan reads characters. A marker begins with a byte that
begins a character, so none is met inside a character of the text, and the bytes between two
characters are passed one by one like any others.
-/

namespace Highlight

section

variable {c d : Char} {marker s : List Char} {bytes tail more more' : List UInt8}

theorem utf8EncodeChar_append_inj
    (h : String.utf8EncodeChar c ++ more = String.utf8EncodeChar d ++ more') :
    c = d ∧ more = more' := by
  have hc := @ByteArray.utf8DecodeChar?_utf8EncodeChar_append more.toByteArray c
  have hd := @ByteArray.utf8DecodeChar?_utf8EncodeChar_append more'.toByteArray d
  rw [← List.toByteArray_append] at hc hd
  rw [h, hd] at hc
  obtain rfl := Option.some.inj hc
  exact ⟨rfl, List.append_cancel_left h⟩

/-- A marker is found among bytes where it is found among characters. -/
theorem utf8_prefix_utf8_iff : utf8 marker <+: utf8 s ↔ marker <+: s := by
  constructor
  · rintro ⟨more, h⟩
    induction marker generalizing s with
    | nil => exact List.nil_prefix
    | cons m marker ih =>
        rw [utf8_cons, List.append_assoc] at h
        cases s with
        | nil => exact absurd (List.append_eq_nil_iff.1 h).1 String.utf8EncodeChar_ne_nil
        | cons c s =>
            obtain ⟨rfl, hmore⟩ := utf8EncodeChar_append_inj (h.trans (utf8_cons c s))
            exact List.cons_prefix_cons.2 ⟨rfl, ih hmore⟩
  · rintro ⟨t, rfl⟩
    exact ⟨utf8 t, (utf8_append marker t).symm⟩

theorem utf8_isPrefixOf_utf8 (marker s : List Char) :
    (utf8 marker).isPrefixOf (utf8 s) = marker.isPrefixOf s := by
  rw [Bool.eq_iff_iff, List.isPrefixOf_iff_prefix, List.isPrefixOf_iff_prefix, utf8_prefix_utf8_iff]

theorem utf8_ne_nil (h : s ≠ []) : utf8 s ≠ [] :=
  fun hnil => h (utf8_injective (t := []) hnil)

/-- Whether bytes are all of the inside of a character. -/
def Inside (bytes : List UInt8) : Prop :=
  ∀ byte ∈ bytes, ¬ byte.IsUTF8FirstByte

theorem Inside.nil : Inside [] :=
  fun _ h => absurd h List.not_mem_nil

theorem exists_utf8EncodeChar (c : Char) :
    ∃ byte tail, String.utf8EncodeChar c = byte :: tail ∧ byte.IsUTF8FirstByte ∧ Inside tail := by
  obtain ⟨byte, tail, h⟩ := List.exists_cons_of_ne_nil (@String.utf8EncodeChar_ne_nil c)
  have hfirst {i : Nat} (hi : i < (byte :: tail).length) :
      (byte :: tail)[i].IsUTF8FirstByte ↔ i = 0 := by
    have hiff := @UInt8.isUTF8FirstByte_getElem_utf8EncodeChar c i (by rw [h]; exact hi)
    simp only [h] at hiff
    exact hiff
  refine ⟨byte, tail, h, (hfirst (Nat.succ_pos _)).2 rfl, fun byte' hmem hbyte => ?_⟩
  obtain ⟨i, hi, rfl⟩ := List.getElem_of_mem hmem
  exact absurd ((hfirst (Nat.succ_lt_succ hi)).1 hbyte) (Nat.succ_ne_zero i)

/-- No marker begins inside a character. -/
theorem Inside.eq_nil_of_marker (h : Inside tail) (hne : marker ≠ [])
    (hmarker : utf8 marker <+: tail ++ bytes) : tail = [] := by
  obtain ⟨m, marker, rfl⟩ := List.exists_cons_of_ne_nil hne
  obtain ⟨byte, more, hm, hfirst, -⟩ := exists_utf8EncodeChar m
  cases tail with
  | nil => rfl
  | cons byte' tail =>
      rw [utf8_cons, hm, List.cons_append, List.cons_append] at hmarker
      obtain ⟨rfl, -⟩ := List.cons_prefix_cons.1 hmarker
      exact absurd hfirst (h byte List.mem_cons_self)

end

namespace CommentSyntax

/-- That a comment ends at an offset which is read byte by byte from another offset on: at its
closing marker, or else behind whatever comments it holds, or at the end of the bytes. -/
inductive EndsAt (opening closing bytes : List UInt8) : Nat → Nat → Prop where
  | exhausted : EndsAt opening closing bytes bytes.length bytes.length
  | closed {offset : Nat} (hclosing : closing <+: bytes.drop offset) :
      EndsAt opening closing bytes offset (offset + closing.length)
  | nested {offset inner stop : Nat} (hclosing : ¬ closing <+: bytes.drop offset)
      (hopening : opening <+: bytes.drop offset)
      (hinner : EndsAt opening closing bytes (offset + opening.length) inner)
      (houter : EndsAt opening closing bytes inner stop) :
      EndsAt opening closing bytes offset stop
  | passed {offset stop : Nat} (hoffset : offset < bytes.length)
      (hclosing : ¬ closing <+: bytes.drop offset) (hopening : ¬ opening <+: bytes.drop offset)
      (hmore : EndsAt opening closing bytes (offset + 1) stop) :
      EndsAt opening closing bytes offset stop

/-- The same of characters: what is left behind a comment, from behind its opening marker. -/
inductive Ends (opening closing : List Char) : List Char → List Char → Prop where
  | exhausted : Ends opening closing [] []
  | closed {rest : List Char} : Ends opening closing (closing ++ rest) rest
  | nested {body inner rest : List Char} (hclosing : ¬ closing <+: opening ++ body)
      (hinner : Ends opening closing body inner) (houter : Ends opening closing inner rest) :
      Ends opening closing (opening ++ body) rest
  | passed {c : Char} {s rest : List Char} (hclosing : ¬ closing <+: c :: s)
      (hopening : ¬ opening <+: c :: s) (hmore : Ends opening closing s rest) :
      Ends opening closing (c :: s) rest

variable {opening closing s rest body text : List Char} {o c x : Char} {os cs : List Char}
  {depth offset stop : Nat}

section

variable {marker opening closing bytes : List UInt8}

theorem le_of_prefix_drop (hne : marker ≠ []) (h : marker <+: bytes.drop offset) :
    offset + marker.length ≤ bytes.length := by
  have hle := h.length_le
  have hpos := List.length_pos_iff.2 hne
  rw [List.length_drop] at hle
  omega

theorem EndsAt.le (hclosing : closing ≠ []) (h : EndsAt opening closing bytes offset stop) :
    stop ≤ bytes.length := by
  induction h with
  | exhausted => exact Nat.le_refl _
  | closed hprefix => exact le_of_prefix_drop hclosing hprefix
  | nested _ _ _ _ _ ih => exact ih
  | passed _ _ _ _ ih => exact ih

/-- A comment always ends somewhere, and not in front of where it begins. -/
theorem exists_endsAt (hopening : opening ≠ []) (hclosing : closing ≠ [])
    (hoffset : offset ≤ bytes.length) :
    ∃ stop, offset ≤ stop ∧ EndsAt opening closing bytes offset stop := by
  induction hleft : bytes.length - offset using Nat.strongRecOn generalizing offset with
  | _ left ih =>
      rcases Nat.eq_or_lt_of_le hoffset with rfl | hlt
      · exact ⟨_, Nat.le_refl _, .exhausted⟩
      · by_cases hclose : closing <+: bytes.drop offset
        · exact ⟨_, Nat.le_add_right .., .closed hclose⟩
        · by_cases hopen : opening <+: bytes.drop offset
          · -- What is read next is behind the comment in here, wherever that comes to end.
            have hle := le_of_prefix_drop hopening hopen
            have hpos := List.length_pos_iff.2 hopening
            obtain ⟨inner, hinner, hends⟩ :=
              ih (bytes.length - (offset + opening.length)) (by omega) hle rfl
            have hstop := hends.le hclosing
            obtain ⟨stop, hmore, houter⟩ := ih (bytes.length - inner) (by omega) hstop rfl
            exact ⟨stop, by omega, .nested hclose hopen hends houter⟩
          · obtain ⟨stop, hmore, hends⟩ := ih (bytes.length - (offset + 1)) (by omega) hlt rfl
            exact ⟨stop, by omega, .passed hlt hclose hopen hends⟩

end

/-- What is read byte by byte is read character by character: from inside a character on, the rest
of it is passed first. -/
theorem exists_ends (hopening : opening ≠ []) (hclosing : closing ≠ []) {tail : List UInt8}
    (h : EndsAt (utf8 opening) (utf8 closing) (utf8 text) offset stop) (hinside : Inside tail)
    (hbytes : (utf8 text).drop offset = tail ++ utf8 s) :
    ∃ rest, (utf8 text).drop stop = utf8 rest ∧ Ends opening closing s rest := by
  have hbehind {marker more : List Char} {offset : Nat}
      (hdrop : (utf8 text).drop offset = utf8 (marker ++ more)) :
      (utf8 text).drop (offset + (utf8 marker).length) = utf8 more := by
    rw [← List.drop_drop, hdrop, utf8_append, List.drop_left]
  induction h generalizing tail s with
  | exhausted =>
      rw [List.drop_length] at hbytes
      obtain ⟨-, hs⟩ := List.append_eq_nil_iff.1 hbytes.symm
      obtain rfl := utf8_injective (t := []) hs
      exact ⟨[], List.drop_length, .exhausted⟩
  | closed hclose =>
      rw [hbytes] at hclose
      obtain rfl := hinside.eq_nil_of_marker hclosing hclose
      obtain ⟨rest, rfl⟩ := utf8_prefix_utf8_iff.1 hclose
      exact ⟨rest, hbehind hbytes, .closed⟩
  | nested hclose hopen hinner houter ihinner ihouter =>
      rw [hbytes] at hclose hopen
      obtain rfl := hinside.eq_nil_of_marker hopening hopen
      obtain ⟨body, rfl⟩ := utf8_prefix_utf8_iff.1 hopen
      obtain ⟨inner, hdrop, hends⟩ := ihinner .nil (hbehind hbytes)
      obtain ⟨rest, hstop, hmore⟩ := ihouter .nil hdrop
      exact ⟨rest, hstop, .nested (mt utf8_prefix_utf8_iff.2 hclose) hends hmore⟩
  | @passed offset stop hoffset hclose hopen hmore ih =>
      have hdrop {byte : UInt8} {more : List UInt8}
          (heq : (utf8 text).drop offset = byte :: more) :
          (utf8 text).drop (offset + 1) = more := by
        rw [← List.drop_drop, heq]
        rfl
      cases tail with
      | cons byte tail =>
          -- Inside a character: nothing is taken of the text yet.
          exact ih (fun b hb => hinside b (List.mem_cons_of_mem byte hb)) (hdrop hbytes)
      | nil =>
          cases s with
          | nil =>
              have hnil := congrArg List.length hbytes
              rw [List.length_drop] at hnil
              exact absurd hnil (Nat.sub_ne_zero_of_lt hoffset)
          | cons x s =>
              obtain ⟨byte, tail, hx, -, htail⟩ := exists_utf8EncodeChar x
              rw [hbytes] at hclose hopen
              have hnext : (utf8 text).drop offset = byte :: (tail ++ utf8 s) := by
                rw [hbytes, List.nil_append, utf8_cons, hx, List.cons_append]
              obtain ⟨rest, hstop, hends⟩ := ih htail (hdrop hnext)
              exact ⟨rest, hstop, .passed (mt utf8_prefix_utf8_iff.2 hclose)
                (mt utf8_prefix_utf8_iff.2 hopen) hends⟩

/-! ## What the scan does with its count

The count is any number, and the induction is on the comment. That the scan is one less behind a
comment than it was in front of it is what takes the place of a return from a recursive call. -/

theorem nestedLoop_nil : nestedLoop o os c cs depth [] = [] :=
  JumpScan.run_nil ..

theorem not_marker (h : ¬ c :: cs <+: x :: s) : ¬ (x = c ∧ cs.isPrefixOf s = true) := by
  rintro ⟨rfl, hprefix⟩
  exact h (List.cons_prefix_cons.2 ⟨rfl, List.isPrefixOf_iff_prefix.1 hprefix⟩)

theorem nestedLoop_closing (s : List Char) :
    nestedLoop o os c cs (depth + 1) (c :: cs ++ s) =
      if depth = 0 then s else nestedLoop o os c cs depth s := by
  have hprefix := List.isPrefixOf_iff_prefix.2 (List.prefix_append cs s)
  rw [nestedLoop, List.cons_append, JumpScan.run_cons_of_looksAt (by simp [nestedScan])]
  dsimp only [nestedScan]
  rw [if_pos ⟨rfl, hprefix⟩, List.drop_left]
  cases depth <;> rfl

theorem nestedLoop_opening (h : ¬ c :: cs <+: o :: os ++ s) :
    nestedLoop o os c cs depth (o :: os ++ s) = nestedLoop o os c cs (depth + 1) s := by
  have hprefix := List.isPrefixOf_iff_prefix.2 (List.prefix_append os s)
  rw [List.cons_append] at h ⊢
  rw [nestedLoop, JumpScan.run_cons_of_looksAt (by simp [nestedScan])]
  dsimp only [nestedScan]
  rw [if_neg (not_marker h), if_pos ⟨rfl, hprefix⟩, List.drop_left]
  rfl

theorem nestedLoop_passed (hclosing : ¬ c :: cs <+: x :: s) (hopening : ¬ o :: os <+: x :: s) :
    nestedLoop o os c cs depth (x :: s) = nestedLoop o os c cs depth s := by
  cases hx : (nestedScan o os c cs).looksAt x with
  | true =>
      rw [nestedLoop, JumpScan.run_cons_of_looksAt hx]
      dsimp only [nestedScan]
      rw [if_neg (not_marker hclosing), if_neg (not_marker hopening)]
      rfl
  | false => exact JumpScan.run_cons_of_plain hx

/-- Over a comment the scan takes one off its count, however many comments are open around it. -/
theorem Ends.nestedLoop_eq (h : Ends (o :: os) (c :: cs) s rest) (depth : Nat) :
    nestedLoop o os c cs (depth + 1) s =
      if depth = 0 then rest else nestedLoop o os c cs depth rest := by
  induction h generalizing depth with
  | exhausted =>
      rw [nestedLoop_nil]
      cases depth with
      | zero => rfl
      | succ depth => rw [if_neg (Nat.succ_ne_zero depth), nestedLoop_nil]
  | closed => exact nestedLoop_closing _
  | nested hclosing _ _ ihinner ihouter =>
      rw [nestedLoop_opening hclosing, ihinner (depth + 1), if_neg (Nat.succ_ne_zero depth),
        ihouter]
  | passed hclosing hopening _ ih => rw [nestedLoop_passed hclosing hopening, ih]

theorem Ends.nestedRest_eq (hopening : opening ≠ []) (hclosing : closing ≠ [])
    (h : Ends opening closing s rest) : nestedRest opening closing s = rest := by
  obtain ⟨o, os, rfl⟩ := List.exists_cons_of_ne_nil hopening
  obtain ⟨c, cs, rfl⟩ := List.exists_cons_of_ne_nil hclosing
  exact h.nestedLoop_eq 0

theorem EndsAt.nestedBlock_eq (hopening : opening ≠ []) (hclosing : closing ≠ [])
    (hbound : IsBoundary text offset)
    (h : EndsAt (utf8 opening) (utf8 closing) (utf8 text) offset stop) :
    Offset.nestedBlock opening closing text offset = stop := by
  have hle := h.le (utf8_ne_nil hclosing)
  obtain ⟨front, back, rfl, rfl⟩ := isBoundary_iff_append.1 hbound
  have hbytes : (utf8 (front ++ back)).drop (byteSize front) = [] ++ utf8 back := by
    rw [utf8_append, ← length_utf8, List.drop_left, List.nil_append]
  obtain ⟨rest, hdrop, hends⟩ := exists_ends hopening hclosing h .nil hbytes
  have hsize := congrArg List.length hdrop
  rw [List.length_drop, length_utf8, length_utf8] at hsize
  rw [length_utf8] at hle
  rw [Offset.nestedBlock, Offset.seek_of_isBoundary _ hbound, dropBytes_byteSize_append,
    hends.nestedRest_eq hopening hclosing, Offset.ofRest]
  omega

/-- What may stand between the markers of a comment: characters that begin no marker with what is
behind them, the closing marker included, and comments. -/
inductive Balanced (opening closing : List Char) : List Char → Prop where
  | nil : Balanced opening closing []
  | plain {c : Char} {body : List Char} (hclosing : ¬ closing <+: c :: (body ++ closing))
      (hopening : ¬ opening <+: c :: (body ++ closing)) (more : Balanced opening closing body) :
      Balanced opening closing (c :: body)
  | comment {inner body : List Char} (hinner : Balanced opening closing inner)
      (more : Balanced opening closing body) :
      Balanced opening closing (opening ++ (inner ++ (closing ++ body)))

/-- Such a comment ends at the closing marker behind it. An opening marker that is hardly longer
than a closing one does not reach behind it. -/
theorem Balanced.ends (hlength : opening.length ≤ closing.length + 1)
    (hfirst : ∀ s, ¬ closing <+: opening ++ s) (h : Balanced opening closing body)
    (rest : List Char) : Ends opening closing (body ++ (closing ++ rest)) rest := by
  have hwithin {marker w : List Char} (hle : marker.length ≤ w.length) (hnot : ¬ marker <+: w)
      (s : List Char) : ¬ marker <+: w ++ s := fun hprefix =>
    hnot (List.prefix_of_prefix_length_le hprefix (List.prefix_append w s) hle)
  induction h generalizing rest with
  | nil => exact .closed
  | @plain c body hclosing hopening more ih =>
      -- Neither marker is longer than this character and the closing marker, which are still there.
      have hlong : closing.length + 1 ≤ (c :: (body ++ closing)).length := by
        simp only [List.length_cons, List.length_append]
        omega
      have hassoc : c :: body ++ (closing ++ rest) = c :: (body ++ closing) ++ rest := by
        simp only [List.cons_append, List.append_assoc]
      have hclosing := hwithin (Nat.le_trans (Nat.le_succ _) hlong) hclosing rest
      have hopening := hwithin (Nat.le_trans hlength hlong) hopening rest
      rw [← hassoc] at hclosing hopening
      exact .passed hclosing hopening (ih rest)
  | @comment inner body hinner more ihinner ihbody =>
      have hends := ihinner (body ++ (closing ++ rest))
      simp only [List.append_assoc]
      exact .nested (hfirst _) hends (ihbody rest)

end CommentSyntax

namespace Rust

variable {body : List Char}

theorem comments_scan_block (s : List Char) :
    comments.scan ('/' :: '*' :: s) =
      some ⟨.commentMultiline, CommentSyntax.nestedRest ['/', '*'] ['*', '/'] s⟩ :=
  rfl

theorem run_comment (h : CommentSyntax.Balanced ['/', '*'] ['*', '/'] body) (rest : List Char) :
    lexer.run () (['/', '*'] ++ (body ++ (['*', '/'] ++ rest))) =
      ⟨.commentMultiline, ['/', '*'] ++ (body ++ ['*', '/'])⟩ :: lexer.run () rest := by
  have hfirst (s : List Char) : ¬ ['*', '/'] <+: ['/', '*'] ++ s := fun hprefix =>
    absurd (List.cons_prefix_cons.1 hprefix).1 (by decide)
  have hends := h.ends (by decide) hfirst rest
  have hscan := comments_scan_block (body ++ (['*', '/'] ++ rest))
  rw [hends.nestedRest_eq (by decide) (by decide)] at hscan
  have hfirstOf : Rule.firstOf rules (['/', '*'] ++ (body ++ (['*', '/'] ++ rest))) =
      some ⟨.commentMultiline, rest⟩ := by
    rw [rules]
    exact (Rule.firstOf_cons_of_none (Rule.whitespace_of_notMem (by decide))).trans
      (Rule.firstOf_cons_of_some hscan)
  have hassoc : ['/', '*'] ++ (body ++ (['*', '/'] ++ rest)) =
      ['/', '*'] ++ (body ++ ['*', '/']) ++ rest := by
    simp only [List.append_assoc]
  rw [hassoc] at hfirstOf ⊢
  exact Lexer.run_ofRules_append consumes_rules (List.cons_ne_nil _ _) hfirstOf

end Rust

/-- From between two characters of a text the scan comes to the one offset at which the recursion
ends a comment, and a comment of Rust whose markers match is one lexeme. -/
theorem Offset.nestedBlock_eq_iff_endsAt :
    (∀ (opening closing text : List Char) (offset stop : Nat), opening ≠ [] → closing ≠ [] →
      IsBoundary text offset →
        (nestedBlock opening closing text offset = stop ↔
          CommentSyntax.EndsAt (utf8 opening) (utf8 closing) (utf8 text) offset stop)) ∧
    ∀ (body rest : List Char), CommentSyntax.Balanced ['/', '*'] ['*', '/'] body →
      Rust.lexer.run () (['/', '*'] ++ (body ++ (['*', '/'] ++ rest))) =
        ⟨.commentMultiline, ['/', '*'] ++ (body ++ ['*', '/'])⟩ :: Rust.lexer.run () rest := by
  refine ⟨fun opening closing text offset stop hopening hclosing hbound => ?_,
    fun body rest hbody => Rust.run_comment hbody rest⟩
  constructor
  · rintro rfl
    obtain ⟨front, back, rfl, rfl⟩ := isBoundary_iff_append.1 hbound
    have hle : byteSize front ≤ (utf8 (front ++ back)).length := by
      rw [length_utf8, byteSize_append]
      exact Nat.le_add_right ..
    obtain ⟨stop, -, hends⟩ :=
      CommentSyntax.exists_endsAt (utf8_ne_nil hopening) (utf8_ne_nil hclosing) hle
    rw [hends.nestedBlock_eq hopening hclosing hbound]
    exact hends
  · exact fun h => h.nestedBlock_eq hopening hclosing hbound

/-- The star between two slashes belongs to the marker in front. -/
theorem Offset.nestedBlock_of_overlap :
    let text := ['é', '/', '*', '/', '*', '*', '/', '*', '/', 'x']
    IsBoundary text 4 ∧ nestedBlock ['/', '*'] ['*', '/'] text 4 = 10 ∧
      Rust.lexer.run () (text.drop 1) =
        [⟨.commentMultiline, ['/', '*', '/', '*', '*', '/', '*', '/']⟩, ⟨.name, ['x']⟩] := by
  intro text
  have hbound : IsBoundary text 4 := isBoundary_append ['é', '/', '*'] _
  have hends : CommentSyntax.EndsAt (utf8 ['/', '*']) (utf8 ['*', '/']) (utf8 text) 4 10 :=
    .nested (by decide) (by decide) (.closed (by decide)) (.closed (by decide))
  have hbody : CommentSyntax.Balanced ['/', '*'] ['*', '/'] ['/', '*', '*', '/'] :=
    @CommentSyntax.Balanced.comment _ _ [] [] .nil .nil
  have hrest : Rust.lexer.run () ['x'] = [⟨.name, ['x']⟩] := by decide +kernel
  have hcomment := nestedBlock_eq_iff_endsAt.2 _ ['x'] hbody
  rw [hrest] at hcomment
  exact ⟨hbound, (nestedBlock_eq_iff_endsAt.1 _ _ text 4 10 (by decide) (by decide) hbound).2 hends,
    hcomment⟩

end Highlight
