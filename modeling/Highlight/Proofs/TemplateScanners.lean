import Highlight.Language.JavaScript
import Highlight.Language.Python
import Highlight.Proofs.JavaScriptTokens
import Highlight.Proofs.NestedReaders
import Highlight.Proofs.OpenStrings
import Highlight.Proofs.PythonTokens
import Highlight.Proofs.Scanners

/-!
# Scanners of languages with embedded code

In both languages strings have code embedded, and the frames of those that are open are the same for
the scanner and the lexer. The one thing that the two do not remember alike is the start: a lexer
knows whether anything has been read, and a scanner knows the offset it began at. That they agree on
it is part of the relation, and it is kept since a lexeme takes something, which leaves the start of
the range behind for good.
-/

namespace Highlight

variable {buffer : Buffer} {offset : Nat} {c : Char} {s : List Char}

namespace Python

open Nesting

/-- Whether a scan in place stands where a scan of the text does. -/
structure Same (offset : Nat) (place : Place) (state : State) : Prop where
  start_le : place.rangeStart ≤ offset
  fresh : state.fresh = true ↔ offset = place.rangeStart
  lineStart : place.lineStart = state.lineStart
  nesting : place.nesting = state.nesting
  fStrings : FStrings state.nesting

theorem dottedStop_eq (hs : buffer.At offset s) :
    dottedStop buffer offset = buffer.offsetOf (behindDotted s) := by
  induction hlength : s.length using Nat.strongRecOn generalizing s offset with
  | _ length ih =>
      subst hlength
      have hsuffix := behindWord_suffix .identContinue s
      have hstop := hs.of_suffix hsuffix
      rw [dottedStop, behindDotted.eq_def, hs.word_eq, hstop.reads_eq (by decide)]
      cases hrest : behindWord .identContinue s with
      | nil => rw [dif_neg fun h => by cases h.1]
      | cons c t =>
          rw [hrest] at hstop hsuffix
          by_cases hc : c = '.'
          · subst hc
            have htail := hstop.tail (by decide)
            have hlt : t.length < s.length := hsuffix.length_le
            rw [htail.startsWord_eq]
            cases hword : atWord .identStart t with
            | true =>
                rw [dif_pos ⟨beq_self_eq_true _, rfl⟩, ih t.length hlt htail rfl]
                exact congrArg buffer.offsetOf (if_pos hword).symm
            | false =>
                rw [dif_neg fun h => Bool.false_ne_true h.2]
                exact congrArg buffer.offsetOf (if_neg (by rw [hword]; decide)).symm
          · rw [dif_neg fun h => hc (by simpa using h.1)]
            split
            · next heq => cases heq; exact absurd rfl hc
            · rfl

theorem follows_readDecorator (lineStart : Bool) :
    Reader.Follows (readDecorator lineStart) (scanDecorator lineStart) := by
  intro buffer offset s hs
  rw [readDecorator, hs.reads_eq (by decide)]
  cases s with
  | nil => rfl
  | cons c s =>
      rw [scanDecorator]
      by_cases hc : c = '@'
      · subst hc
        have htail := hs.tail (by decide)
        rw [htail.startsWord_eq, dottedStop_eq htail]
        cases lineStart <;> cases atWord .identStart s <;> rfl
      · simp [hc]

theorem follows_readWord : Reader.Follows readWord scanWord := by
  intro buffer offset s hs
  rw [readWord, hs.identifier?_eq, scanWord]
  cases hrest : behindIdentifier? s with
  | none => rfl
  | some rest =>
      simp only [Option.map_some, hs.slice_eq (behindIdentifier?_suffix hrest),
        before_of_behindIdentifier? hrest]
      rfl

theorem follows_readContinuation : Reader.Follows readContinuation scanContinuation := by
  intro buffer offset s hs
  rw [readContinuation, hs.reads_eq (by decide)]
  cases s with
  | nil => rfl
  | cons c s =>
      rw [scanContinuation]
      by_cases hc : c = '\x5c'
      · subst hc
        exact congrArg some ((hs.tail (by decide)).inPlace_mk .text).symm
      · simp [hc]

theorem fStringAt?_eq (hs : buffer.At offset s) :
    fStringAt? buffer offset = (fString? s).map (Prod.map id buffer.offsetOf) := by
  rw [fStringAt?, StringSyntax.opening?_eq (by decide) hs, fString?]
  cases haffix : strings.affix? s with
  | none => rfl
  | some affix =>
      obtain ⟨quote, t, rfl, hquote, hopening, hslice⟩ :=
        StringSyntax.opening_of_affix? (by decide) hs haffix
      simp only [Option.map_some, Option.bind_some, hslice, hopening.current_cons hquote,
        hopening.startsWith_quotes, List.drop_left]
      split
      · cases hbody : [quote, quote].isPrefixOf? t with
        | none =>
            have hbehind := (hopening.tail hquote).eq_offsetOf
            exact congrArg (some <| Prod.mk _ ·) hbehind
        | some body =>
            have hbehind := (hopening.behind_quotes hquote hbody).eq_offsetOf
            exact congrArg (some <| Prod.mk _ ·) hbehind
      · rfl

section

variable {place : Place} {state : State}

theorem Same.quoted (h : Same offset place state) :
    Styled TemplateSyntax.Quoted state.nesting := fun frame hmem =>
  (h.fStrings frame hmem).quoted

theorem tokenAt_eq {nesting : Nesting} (h : Same offset place state)
    (hs : buffer.At offset (c :: s)) :
    tokenAt place nesting buffer offset =
      (scanToken state nesting c s).map (Match.inPlace buffer) id := by
  have hleading : Reader.Finds buffer offset (c :: s) (Reader.firstOf (leadingReaders place))
      (Rule.firstOf (leading state)) :=
    Reader.finds_firstOf <| .cons (finds_readHashbang h.fresh hs) <|
      .cons (comments.follows_read buffer offset _ hs) .nil
  have htrailing : Reader.Follows (Reader.firstOf (trailingReaders place))
      (Rule.firstOf (trailing state)) := by
    rw [trailingReaders, h.lineStart]
    exact Reader.follows_firstOf <| .cons (StringSyntax.follows_read (by decide)) <|
      .cons numbers.follows_read <| .cons (follows_readDecorator _) <| .cons follows_readWord <|
      .cons (OperatorSyntax.follows_read code.clear.operators) <|
      .cons (Reader.follows_single _ _) <| .cons follows_readContinuation .nil
  rw [Reader.Finds] at hleading
  rw [tokenAt, scanToken, hleading, fStringAt?_eq hs,
    Reader.orCharacter_eq .error hs (htrailing buffer offset _ hs)]
  cases Rule.firstOf (leading state) (c :: s) with
  | some found => rfl
  | none =>
      cases hopen : fString? (c :: s) with
      | none => rfl
      | some opened =>
          obtain ⟨style, body⟩ := opened
          have hbody := hs.of_suffix ((fString?_suffix hopen).trans (List.suffix_cons c s))
          exact Nesting.enterAt_eq (fString_of_fString? hopen).quoted hbody

theorem codeAt_eq {nesting : Nesting} (h : Same offset place state)
    (hs : buffer.At offset (c :: s)) :
    codeAt place nesting buffer offset =
      let step := stepCode state nesting c s
      ⟨step.kind, buffer.offsetOf step.rest,
        { place with lineStart := step.state.lineStart, nesting := step.state.nesting }⟩ := by
  have hspace := Reader.follows_run .whitespace .whitespace buffer offset _ hs
  rw [codeAt, Reader.whitespace, hspace, stepCode, Rule.whitespace]
  cases hfound : Rule.run .whitespace .whitespace (c :: s) with
  | none =>
      dsimp only [Option.map_none]
      rw [tokenAt_eq h hs]
      rfl
  | some found =>
      have hsuffix := (Rule.consumes_run _ _ c s found hfound).trans (List.suffix_cons c s)
      have hrest : found.rest = (c :: s).dropWhile AsciiSet.whitespace.has := by
        rw [Rule.run] at hfound
        split at hfound
        · next hc =>
            cases hfound
            exact (List.dropWhile_cons_of_pos hc).symm
        · cases hfound
      dsimp only [Option.map_some, Match.inPlace]
      rw [hs.slice_eq hsuffix, hrest, before_dropWhile, h.lineStart]

theorem next_eq (h : Same offset place state) (hs : buffer.At offset (c :: s)) :
    next buffer offset place =
      let step := step state c s
      some ⟨step.kind, buffer.offsetOf step.rest,
        { place with lineStart := step.state.lineStart, nesting := step.state.nesting }⟩ := by
  rw [next, h.nesting, settleAt_eq h.quoted hs, step]
  rcases state.nesting.settle (c :: s) with ⟨found | found, nesting⟩
  · dsimp only [Prod.map, Option.map_none, id]
    rw [if_neg (Nat.not_le.2 hs.lt_length), delimiterAt_eq hs]
    rcases nesting.delimiter (c :: s) with ⟨found | found, nesting⟩
    · exact congrArg some (codeAt_eq h hs)
    · dsimp only [Prod.map, Option.map_some, id]
      rw [← h.lineStart]
      rfl
  · dsimp only [Prod.map, Option.map_some, id]
    rw [← h.lineStart]
    rfl

theorem fresh_step (state : State) (c : Char) (s : List Char) :
    (step state c s).state.fresh = false := by
  rw [step_eq_look]
  split
  · rfl
  · unfold stepCode
    split <;> rfl

end

theorem simulates : scanner.Simulates lexer fun _ offset _ => Same offset where
  start buffer offset s hs := {
    start_le := Nat.le_refl offset
    fresh := iff_of_true rfl rfl
    lineStart := rfl
    nesting := rfl
    fStrings := Nesting.styled_nil }
  next_nil buffer offset place state hs h := by
    obtain ⟨nesting, hsettle⟩ := exists_settleAt_nil h.quoted hs
    show next buffer offset place = none
    rw [next, h.nesting, hsettle]
    exact if_pos (hs.length_le_iff.2 rfl)
  next_cons buffer offset c s place state hs h := by
    have hlt := hs.lt_offsetOf (step_suffix state c s)
    refine ⟨_, next_eq h hs, Nat.le_trans h.start_le (Nat.le_of_lt hlt), ?_, rfl, rfl,
      h.fStrings.step c s⟩
    have hfresh : (lexer.step state c s).state.fresh = false := fresh_step state c s
    rw [hfresh]
    exact iff_of_false Bool.false_ne_true (Nat.ne_of_gt (Nat.lt_of_le_of_lt h.start_le hlt))

end Python

namespace JavaScript

open Nesting

theorem behindRegexBytes_append_of_plain {inClass : Bool} {front : List UInt8} (s : List UInt8)
    (h : ∀ byte ∈ front, byte ≠ 0x5C ∧ byte ≠ 0x0A ∧ byte ≠ 0x5B ∧ byte ≠ 0x5D ∧
      ¬ (byte = 0x2F ∧ ¬ inClass)) :
    behindRegexBytes inClass (front ++ s) = behindRegexBytes inClass s := by
  induction front with
  | nil => rfl
  | cons byte front ih =>
      obtain ⟨⟨hescape, hline, hopen, hclose, hslash⟩, hmore⟩ := List.forall_mem_cons.1 h
      rw [List.cons_append, behindRegexBytes, if_neg hescape, if_neg hline, if_neg hopen,
        if_neg hclose, if_neg hslash]
      exact ih hmore

theorem behindRegexBytes_utf8 (inClass : Bool) (s : List Char) :
    behindRegexBytes inClass (utf8 s) = utf8 (behindRegex inClass s) := by
  fun_induction behindRegex inClass s with
  | case1 => rw [utf8_nil, behindRegexBytes]
  | case2 inClass =>
      rw [utf8_cons_of_ascii (by decide), behindRegexBytes, if_pos (by rfl)]
      rfl
  | case3 inClass s =>
      rw [utf8_cons_of_ascii (by decide), behindRegexBytes, if_pos (by rfl)]
      rfl
  | case4 inClass d s hd ih =>
      have hline : ¬ (utf8 (d :: s)).head?.all (· == 0x0A) = true := by
        obtain ⟨byte, tail, hbytes, -⟩ := exists_charWidth d
        have hmem : byte ∈ String.utf8EncodeChar d := by rw [hbytes]; exact List.mem_cons_self
        have hbyte := represents_beq (by decide : '\n'.toNat < 128) d byte hmem
        rw [utf8_cons, hbytes, List.cons_append, List.head?_cons, Option.all_some]
        intro heq
        exact hd (eq_of_beq (hbyte.symm.trans heq))
      rw [utf8_cons_of_ascii (by decide), behindRegexBytes, if_pos (by rfl), if_neg hline,
        ByteScan.character_utf8]
      exact ih
  | case5 inClass s =>
      rw [utf8_cons_of_ascii (by decide), behindRegexBytes]
      rfl
  | case6 inClass s _ _ ih =>
      rw [utf8_cons_of_ascii (by decide), behindRegexBytes]
      exact ih
  | case7 inClass s _ _ _ ih =>
      rw [utf8_cons_of_ascii (by decide), behindRegexBytes]
      exact ih
  | case8 inClass c s _ _ _ _ hslash =>
      obtain ⟨rfl, hclass⟩ := hslash
      have hletters := (represents_has .letters).dropWhile s
      rw [utf8_cons_of_ascii (by decide), behindRegexBytes, if_neg (by decide), if_neg (by decide),
        if_neg (by decide), if_neg (by decide), if_pos ⟨by rfl, hclass⟩, hletters]
  | case9 inClass c s hescape hline hopen hclose hslash ih =>
      -- None of the bytes of the character means anything.
      rw [utf8_cons, behindRegexBytes_append_of_plain, ih]
      intro byte hbyte
      have hne {d : Char} := @ne_of_mem_utf8EncodeChar c d byte hbyte
      exact ⟨hne (d := '\x5c') (by decide) hescape, hne (d := '\n') (by decide) hline,
        hne (d := '[') (by decide) hopen, hne (d := ']') (by decide) hclose,
        fun h => hne (d := '/') (by decide) (fun hc => hslash ⟨hc, h.2⟩) h.1⟩

theorem follows_readRegex (operandNext : Bool) :
    Reader.Follows (readRegex operandNext) (scanRegex operandNext) := by
  intro buffer offset s hs
  rw [readRegex, hs.reads_eq (by decide)]
  cases s with
  | nil => rfl
  | cons c s =>
      rw [scanRegex]
      by_cases hc : c = '/'
      · subst hc
        have hsearch : Encodes (behindRegex false) (behindRegexBytes false) :=
          ⟨behindRegex_suffix false, behindRegexBytes_utf8 false⟩
        rw [(hs.tail (by decide)).seek_eq hsearch]
        cases operandNext <;> rfl
      · simp [hc]

theorem follows_readWord : Reader.Follows readWord scanWord := by
  intro buffer offset s hs
  have hword : before s (behindWord .identContinueDollar s) = wordOf .identContinueDollar s :=
    before_dropWhile ..
  rw [readWord, hs.startsWord_eq, scanWord, hs.word_eq]
  dsimp only
  rw [hs.slice_eq (behindWord_suffix ..), hword]
  split <;> rfl

theorem follows_readPrivate : Reader.Follows readPrivate scanPrivate := by
  intro buffer offset s hs
  rw [readPrivate, hs.reads_eq (by decide)]
  cases s with
  | nil => rfl
  | cons c s =>
      rw [scanPrivate]
      by_cases hc : c = '#'
      · subst hc
        have htail := hs.tail (by decide)
        rw [htail.startsWord_eq, htail.word_eq]
        cases atWord .identStartDollar s <;> rfl
      · simp [hc]

/-- Whether a scan in place stands where a scan of the text does. -/
structure Same (offset : Nat) (place : Place) (state : State) : Prop where
  start_le : place.rangeStart ≤ offset
  fresh : state.fresh = true ↔ offset = place.rangeStart
  operandNext : place.operandNext = state.operandNext
  nesting : place.nesting = state.nesting
  templated : Templated state.nesting

section

variable {place : Place} {state : State}

theorem Same.quoted (h : Same offset place state) :
    Styled TemplateSyntax.Quoted state.nesting := fun frame hmem =>
  h.templated frame hmem ▸ quoted_template

theorem codeAt_eq {nesting : Nesting} (h : Same offset place state)
    (hs : buffer.At offset (c :: s)) :
    codeAt place nesting buffer offset =
      (scanCode state nesting c s).map (Match.inPlace buffer) id := by
  have hleading : Reader.Finds buffer offset (c :: s) (Reader.firstOf (leadingReaders place))
      (Rule.firstOf (leading state)) := by
    rw [leadingReaders, h.operandNext]
    exact Reader.finds_firstOf <| .cons (Reader.follows_run _ _ buffer offset _ hs) <|
      .cons (finds_readHashbang h.fresh hs) <| .cons (comments.follows_read buffer offset _ hs) <|
      .cons (follows_readRegex _ buffer offset _ hs) .nil
  have htrailing : Reader.Follows (Reader.firstOf trailingReaders) (Rule.firstOf trailing) :=
    Reader.follows_firstOf <| .cons (StringSyntax.follows_read (by decide)) <|
      .cons numbers.follows_read <| .cons follows_readWord <| .cons follows_readPrivate <|
      .cons (OperatorSyntax.follows_read code.clear.operators) <|
      .cons (Reader.follows_single _ _) .nil
  rw [Reader.Finds] at hleading
  rw [codeAt, scanCode, hleading, hs.reads_eq (by decide),
    Reader.orCharacter_eq .error hs (htrailing buffer offset _ hs)]
  cases Rule.firstOf (leading state) (c :: s) with
  | some found => rfl
  | none =>
      by_cases hc : c = '\x60'
      · subst hc
        exact Nesting.enterAt_eq quoted_template (hs.tail (by decide))
      · have hreads : ¬ ((c :: s).head? == some '\x60') = true := by simpa using hc
        dsimp only [Option.map_none]
        rw [if_neg hreads, if_neg hc]
        rfl

theorem lexemeAt?_eq (h : Same offset place state) (hs : buffer.At offset (c :: s)) :
    lexemeAt? buffer offset place =
      some ((scan state c s).map (Match.inPlace buffer) id) := by
  rw [lexemeAt?, h.nesting, settleAt_eq h.quoted hs, scan]
  rcases state.nesting.settle (c :: s) with ⟨found | found, nesting⟩
  · dsimp only [Prod.map, Option.map_none, id]
    rw [if_neg (Nat.not_le.2 hs.lt_length), delimiterAt_eq hs]
    rcases nesting.delimiter (c :: s) with ⟨found | found, nesting⟩
    · exact congrArg some (codeAt_eq h hs)
    · rfl
  · rfl

theorem next_eq (h : Same offset place state) (hs : buffer.At offset (c :: s)) :
    next buffer offset place =
      let step := step state c s
      some ⟨step.kind, buffer.offsetOf step.rest,
        { place with operandNext := step.state.operandNext, nesting := step.state.nesting }⟩ := by
  have hslice := hs.slice_eq ((scan_suffix state c s).trans (List.suffix_cons c s))
  rw [next, lexemeAt?_eq h hs, Option.map_some, step]
  dsimp only [Prod.map, Match.inPlace, id]
  rw [hslice, h.operandNext]

end

theorem simulates : scanner.Simulates lexer fun _ offset _ => Same offset where
  start buffer offset s hs := {
    start_le := Nat.le_refl offset
    fresh := iff_of_true rfl rfl
    operandNext := rfl
    nesting := rfl
    templated := Nesting.styled_nil }
  next_nil buffer offset place state hs h := by
    obtain ⟨nesting, hsettle⟩ := exists_settleAt_nil h.quoted hs
    have hlexeme : lexemeAt? buffer offset place = none := by
      rw [lexemeAt?, h.nesting, hsettle]
      exact if_pos (hs.length_le_iff.2 rfl)
    show next buffer offset place = none
    rw [next, hlexeme, Option.map_none]
  next_cons buffer offset c s place state hs h := by
    have hlt := hs.lt_offsetOf (scan_suffix state c s)
    exact ⟨_, next_eq h hs, Nat.le_trans h.start_le (Nat.le_of_lt hlt),
      iff_of_false Bool.false_ne_true (Nat.ne_of_gt (Nat.lt_of_le_of_lt h.start_le hlt)), rfl, rfl,
      (h.templated.step c s).2⟩

end JavaScript

end Highlight
