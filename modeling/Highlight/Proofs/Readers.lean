import Mathlib.Data.List.Forall2
import Highlight.Comment
import Highlight.Lexer
import Highlight.Number
import Highlight.Operator
import Highlight.Proofs.Buffers
import Highlight.StringLiteral
import Highlight.Vocabulary

/-!
# Readers and rules

A reader finds in place what a rule finds at the front of a text. `Reader.Follows` says so for every
buffer and every offset at which a text is left: both decline, or they recognise the same construct,
and the reader answers with the offset of what the rule leaves. Like the rules, the readers of a
language are put together from those of its parts, and a list of readers follows a list of rules if
each of its members does.
-/

namespace Highlight

/-- A construct at the front of what a buffer has left, in place. -/
def Match.inPlace (buffer : Buffer) (found : Match) : Span :=
  ⟨found.kind, buffer.offsetOf found.rest⟩

theorem Buffer.At.inPlace_mk {buffer : Buffer} {offset : Nat} {s : List Char}
    (hs : buffer.At offset s) (kind : Kind) : (Match.mk kind s).inPlace buffer = ⟨kind, offset⟩ :=
  congrArg (Span.mk kind) hs.eq_offsetOf.symm

namespace Reader

/-- Whether a reader finds at an offset what a rule finds in a text. -/
def Finds (buffer : Buffer) (offset : Nat) (s : List Char) (reader : Reader) (rule : Rule) : Prop :=
  reader buffer offset = (rule s).map (Match.inPlace buffer)

/-- Whether a reader finds in place what a rule finds in the text that is left. -/
def Follows (reader : Reader) (rule : Rule) : Prop :=
  ∀ buffer offset s, buffer.At offset s →
    reader buffer offset = (rule s).map (Match.inPlace buffer)

end Reader

variable {buffer : Buffer} {offset : Nat} {s : List Char}

namespace Reader

theorem finds_firstOf {readers : List Reader} {rules : List Rule}
    (h : List.Forall₂ (Finds buffer offset s) readers rules) :
    Finds buffer offset s (firstOf readers) (Rule.firstOf rules) := by
  induction h with
  | nil => rfl
  | @cons reader rule readers rules hreader _ ih =>
      simp only [Finds, firstOf, Rule.firstOf, List.findSome?_cons] at hreader ih ⊢
      cases hrule : rule s with
      | none =>
          rw [hrule] at hreader
          rw [hreader]
          exact ih
      | some found =>
          rw [hrule] at hreader
          rw [hreader]
          rfl

theorem follows_firstOf {readers : List Reader} {rules : List Rule}
    (h : List.Forall₂ Follows readers rules) : Follows (firstOf readers) (Rule.firstOf rules) :=
  fun buffer offset s hs => finds_firstOf (h.imp fun _ _ hreader => hreader buffer offset s hs)

theorem follows_run (kind : Kind) (set : AsciiSet) :
    Follows (run kind set) (Rule.run kind set) := by
  intro buffer offset s hs
  rw [run, hs.readsAny_eq, hs.skipWhile_eq]
  cases s with
  | nil => rfl
  | cons c s =>
      rw [List.head?_cons, Option.any_some, Rule.run]
      cases hc : set.has c with
      | true => rw [List.dropWhile_cons_of_pos hc]; rfl
      | false => rfl

theorem follows_single (kind : Kind) (set : AsciiSet) :
    Follows (single kind set) (Rule.single kind set) := by
  intro buffer offset s hs
  rw [single, hs.readsAny_eq]
  cases s with
  | nil => rfl
  | cons c s =>
      rw [List.head?_cons, Option.any_some, Rule.single]
      cases hc : set.has c with
      | true => rw [(hs.tail (set.ascii c hc)).eq_offsetOf]; rfl
      | false => rfl

theorem orCharacter_eq {reader : Reader} {rule : Rule} {c : Char} (fallback : Kind)
    (hs : buffer.At offset (c :: s)) (h : Finds buffer offset (c :: s) reader rule) :
    orCharacter fallback reader buffer offset =
      (Lexer.scanOr fallback rule c s).inPlace buffer := by
  rw [Finds] at h
  rw [orCharacter, h, hs.next_cons, Lexer.scanOr]
  cases rule (c :: s) <;> rfl

end Reader

namespace CommentSyntax

variable (syn : CommentSyntax)

theorem follows_readBlock : Reader.Follows syn.readBlock syn.scanBlock := by
  intro buffer offset s hs
  rw [readBlock, scanBlock]
  cases syn.block with
  | none => rfl
  | some markers =>
      obtain ⟨opening, closing⟩ := markers
      dsimp only
      rw [hs.startsWith_eq, ← List.isSome_isPrefixOf?_eq_isPrefixOf]
      cases hopening : opening.toList.isPrefixOf? s with
      | none => rfl
      | some body =>
          have hbody := hs.isPrefixOf? hopening
          rw [hbody.behind_eq, hbody.seek_eq (ByteScan.encodes_nestedRest ..)]
          simp only [Option.isSome_some, if_true, Option.map_some, Match.inPlace, blockRest]
          split <;> rfl

theorem follows_readLine : Reader.Follows syn.readLine syn.scanLine := by
  intro buffer offset s hs
  have hany : (syn.line.any fun marker => buffer.startsWith offset marker.toList) =
      syn.line.any fun marker => marker.toList.isPrefixOf s :=
    congrArg syn.line.any (funext fun marker => hs.startsWith_eq marker.toList)
  rw [readLine, scanLine, hany, hs.line_eq]
  split <;> rfl

theorem follows_read : Reader.Follows syn.read syn.scan :=
  Reader.follows_firstOf (.cons syn.follows_readBlock (.cons syn.follows_readLine .nil))

end CommentSyntax

/-- A line at the start of a range is one at the start of a text. -/
theorem finds_readHashbang {rangeStart : Nat} {fresh : Bool}
    (hfresh : fresh = true ↔ offset = rangeStart) (hs : buffer.At offset s) :
    Reader.Finds buffer offset s (readHashbang rangeStart) (scanHashbang fresh) := by
  rw [Reader.Finds, readHashbang, scanHashbang, hs.startsWith_eq, hs.line_eq]
  simp only [hfresh]
  split <;> rfl

theorem Vocabulary.follows_read (vocabulary : Vocabulary) :
    Reader.Follows vocabulary.read vocabulary.scan := by
  intro buffer offset s hs
  rw [read, hs.identifier?_eq, scan]
  cases hrest : behindIdentifier? s with
  | none => rfl
  | some rest =>
      have hword := hs.slice_eq (behindIdentifier?_suffix hrest)
      simp only [Option.map_some, hword, before_of_behindIdentifier? hrest]
      rfl

namespace OperatorSyntax

variable {syn : OperatorSyntax}

theorem readsAny_eq (spellings : List String) (hs : buffer.At offset s) :
    readsAny spellings buffer offset = matchesAny spellings s :=
  congrArg spellings.any (funext fun op => hs.startsWith_eq op.toList)

theorem lengthAt?_eq (hsyn : syn.Clear) (hs : buffer.At offset s) :
    syn.lengthAt? buffer offset = syn.length? s := by
  have hascii : ∀ c ∈ syn.one.toList, c.toNat < 128 := by
    intro c hc
    have hmem : [c] ∈ syn.spellings := List.mem_append_right _ (List.mem_map_of_mem hc)
    exact (hsyn.plain [c] hmem c (List.mem_singleton_self c)).2
  rw [lengthAt?, length?.eq_def, readsAny_eq _ hs, readsAny_eq _ hs, readsAny_eq _ hs,
    hs.any_reads hascii]
  cases s <;> rfl

theorem follows_read (hsyn : syn.Clear) : Reader.Follows syn.read syn.scan := by
  intro buffer offset s hs
  rw [read, scan, lengthAt?_eq hsyn hs, Option.map_map]
  refine Option.map_congr fun n hn => ?_
  obtain ⟨word, hmem, ⟨t, rfl⟩, hlength⟩ := exists_of_length? hn
  have hascii : ∀ c ∈ word, c.toNat < 128 := fun c hc => (hsyn.plain word hmem c hc).2
  have ht := hs.append.eq_offsetOf
  rw [(hsyn.longest word hmem).2] at hlength
  cases hlength
  rw [byteSize_of_ascii hascii] at ht
  rw [Function.comp_apply, dropBytes_append_of_ascii hascii, ht]
  rfl

end OperatorSyntax

theorem AsciiSet.has_hash : AsciiSet.hash.has = (· == '#') := by
  funext c
  exact Bool.or_false (c == '#')

namespace StringSyntax

variable {syn : StringSyntax} {affix : List Char}

/-- What an affix may hold, and what may be behind it, is of ASCII. -/
def Ascii (syn : StringSyntax) : Prop :=
  ∀ c ∈ syn.affixes, c.toNat < 128

instance (syn : StringSyntax) : Decidable syn.Ascii :=
  inferInstanceAs (Decidable (∀ c ∈ syn.affixes, c.toNat < 128))

theorem affixStop_eq (hsyn : syn.Ascii) (left : Nat) (hs : buffer.At offset s) :
    syn.affixStop buffer left offset =
      offset + ((s.take left).takeWhile syn.affixes.contains).length := by
  induction left generalizing offset s with
  | zero => rfl
  | succ left ih =>
      rw [affixStop, hs.any_reads hsyn]
      cases s with
      | nil => rfl
      | cons c s =>
          rw [List.head?_cons, Option.any_some, List.take_succ_cons]
          cases hc : syn.affixes.contains c with
          | false => rw [List.takeWhile_cons_of_neg (by rw [hc]; decide)]; rfl
          | true =>
              have hascii := hsyn c (List.contains_iff_mem.1 hc)
              rw [if_pos rfl, ih (hs.tail hascii), List.takeWhile_cons_of_pos hc, List.length_cons]
              omega

theorem letters_prefix (syn : StringSyntax) (s : List Char) : syn.letters s <+: s :=
  (List.takeWhile_prefix _).trans (List.take_prefix ..)

/-- Behind the affix is what opens the literal. -/
theorem at_opening (hsyn : syn.Ascii) (hs : buffer.At offset s) :
    buffer.At (offset + (syn.letters s).length) (s.drop (syn.letters s).length) := by
  obtain ⟨t, ht⟩ := syn.letters_prefix s
  have hascii : ∀ c ∈ syn.letters s, c.toNat < 128 := fun c hc =>
    hsyn c (List.contains_iff_mem.1 (List.mem_takeWhile_imp hc))
  have hdrop := congrArg (List.drop (syn.letters s).length) ht
  rw [List.drop_left] at hdrop
  rw [← hdrop, ← byteSize_of_ascii hascii]
  exact (ht ▸ hs).append

theorem opening?_eq (hsyn : syn.Ascii) (hs : buffer.At offset s) :
    syn.opening? buffer offset = (syn.affix? s).map (offset + ·.length) := by
  have hopening := at_opening hsyn hs
  have hlt : decide (offset < offset + (syn.letters s).length) = !(syn.letters s).isEmpty := by
    cases syn.letters s <;> simp
  have hstop : syn.affixStop buffer syn.maxAffix offset = offset + (syn.letters s).length :=
    affixStop_eq hsyn _ hs
  simp only [opening?, hstop, affix?, hlt, hopening.reads_eq (c := '\x22') (by decide),
    hopening.reads_eq (c := '\x27') (by decide), hopening.reads_eq (c := '#') (by decide)]
  cases s.drop (syn.letters s).length with
  | nil => simp
  | cons c t =>
      simp only [List.head?_cons, Option.some_beq_some]
      change (if syn.opens (syn.letters s) c = true then _ else _) = _
      cases syn.opens (syn.letters s) c <;> rfl

theorem follows_readHashed : Reader.Follows syn.readHashed syn.scanHashed := by
  intro buffer offset s hs
  have hsuffix := List.dropWhile_suffix (l := s) (· == '#')
  have hquote := hs.of_suffix hsuffix
  have hhashes : buffer.offsetOf (s.dropWhile (· == '#')) - offset =
      (s.takeWhile (· == '#')).length := by
    rw [hs.offsetOf_of_suffix hsuffix, before_dropWhile, Nat.add_sub_cancel_left,
      byteSize_of_ascii]
    intro c hc
    have heq := @List.mem_takeWhile_imp _ (· == '#') s c hc
    rw [eq_of_beq heq]
    decide
  simp only [readHashed, scanHashed, drop_length_takeWhile, hs.skipWhile_eq, AsciiSet.has_hash,
    hhashes, hquote.reads_eq (c := '\x22') (by decide)]
  cases hcons : s.dropWhile (· == '#') with
  | nil => rfl
  | cons c body =>
      rw [hcons] at hquote
      by_cases hc : c = '\x22'
      · subst hc
        rw [(hquote.tail (by decide)).behind_eq, ← ByteScan.hashedRest_eq_behind]
        simp [Match.inPlace]
      · simp [hc]

theorem readQuoted_eq {quote : Char} (hquote : quote.toNat < 128)
    (hs : buffer.At offset (quote :: s)) :
    syn.readQuoted affix buffer offset =
      (syn.scanQuoted affix (quote :: s)).map (Match.inPlace buffer) := by
  have hhashed := @follows_readHashed syn buffer offset _ hs
  have htail := hs.tail hquote
  simp only [readQuoted, scanQuoted, hs.current_cons hquote, hhashed, hs.startsWith_quotes]
  by_cases hhash : quote = '#'
  · rw [if_pos hhash, if_pos hhash]
    split <;> rfl
  · rw [if_neg hhash, if_neg hhash, htail.quoted_eq hquote]
    cases syn.triple with
    | false => rfl
    | true =>
        cases hbody : [quote, quote].isPrefixOf? s with
        | none => rfl
        | some body =>
            rw [if_pos rfl, (hs.behind_quotes hquote hbody).tripleQuoted_eq hquote]
            rfl

theorem follows_readBacktick : Reader.Follows syn.readBacktick syn.scanBacktick := by
  intro buffer offset s hs
  rw [readBacktick, hs.reads_eq (by decide)]
  cases s with
  | nil => simp [scanBacktick]
  | cons c s =>
      rw [scanBacktick]
      by_cases hc : c = '\x60'
      · subst hc
        rw [(hs.tail (by decide)).quoted_eq (by decide)]
        cases syn.rawBacktick <;> rfl
      · simp [hc]

theorem ascii_of_opens {c : Char} (h : syn.opens affix c = true) : c.toNat < 128 := by
  simp only [opens, Bool.or_eq_true, Bool.and_eq_true, beq_iff_eq] at h
  rcases h with (⟨-, rfl⟩ | ⟨-, rfl⟩) | ⟨⟨-, rfl⟩, -⟩
  all_goals decide

/-- The affix at the front of a text, and what opens the literal behind it. -/
theorem exists_of_affix? (h : syn.affix? s = some affix) :
    ∃ quote t, affix = syn.letters s ∧ s = affix ++ quote :: t ∧ quote.toNat < 128 := by
  obtain ⟨t, ht⟩ := syn.letters_prefix s
  have hdrop := congrArg (List.drop (syn.letters s).length) ht
  rw [List.drop_left] at hdrop
  rw [affix?, ← hdrop] at h
  cases t with
  | nil => cases h
  | cons quote t =>
      dsimp only at h
      split at h
      · next hopens =>
          cases h
          exact ⟨quote, t, rfl, ht.symm, ascii_of_opens hopens⟩
      · cases h

/-- In place the affix is what is between an offset and that of the opening quote. -/
theorem opening_of_affix? (hsyn : syn.Ascii) (hs : buffer.At offset s)
    (h : syn.affix? s = some affix) :
    ∃ quote t, s = affix ++ quote :: t ∧ quote.toNat < 128 ∧
      buffer.At (offset + affix.length) (quote :: t) ∧
      buffer.slice offset (offset + affix.length) = affix := by
  obtain ⟨quote, t, hletters, rfl, hquote⟩ := exists_of_affix? h
  have hopening := at_opening hsyn hs
  rw [← hletters, List.drop_left] at hopening
  have hslice := hs.slice_eq (List.suffix_append affix (quote :: t))
  rw [before_append, ← hopening.eq_offsetOf] at hslice
  exact ⟨quote, t, rfl, hquote, hopening, hslice⟩

theorem follows_readAffixed (hsyn : syn.Ascii) :
    Reader.Follows syn.readAffixed syn.scanAffixed := by
  intro buffer offset s hs
  rw [readAffixed, opening?_eq hsyn hs, scanAffixed]
  cases haffix : syn.affix? s with
  | none => rfl
  | some affix =>
      obtain ⟨quote, t, rfl, hquote, hopening, hslice⟩ := opening_of_affix? hsyn hs haffix
      show syn.readQuoted (buffer.slice offset (offset + affix.length)) buffer _ = _
      dsimp only
      rw [hslice, readQuoted_eq hquote hopening, List.drop_left]

theorem follows_read (hsyn : syn.Ascii) : Reader.Follows syn.read syn.scan :=
  Reader.follows_firstOf (.cons follows_readBacktick (.cons (follows_readAffixed hsyn) .nil))

end StringSyntax

theorem readCharacter_eq (hs : buffer.At offset ('\x27' :: s)) :
    readCharacter buffer offset = (scanCharacter s).inPlace buffer := by
  rw [readCharacter, (hs.tail (by decide)).quoted_eq (by decide)]
  rfl

namespace NumberSyntax

variable (syn : NumberSyntax)

theorem represents_isDigitOrGap (set : AsciiSet) :
    Represents (fun byte => set.hasByte byte || (syn.underscores && byte == 0x5F))
      (syn.isDigitOrGap set) := by
  intro c byte hbyte
  have hset := represents_has set c byte hbyte
  have hgap : (byte == 0x5F) = (c == '_') :=
    represents_beq (by decide : '_'.toNat < 128) c byte hbyte
  dsimp only
  rw [isDigitOrGap, hset, hgap]

theorem digitsStop_eq (set : AsciiSet) (hs : buffer.At offset s) :
    syn.digitsStop set buffer offset = buffer.offsetOf (syn.behindDigits set s) :=
  hs.seek_eq (ByteScan.encodes_dropWhile (syn.represents_isDigitOrGap set))

theorem head?_any_digits (s : List Char) : s.head?.any AsciiSet.digits.has = atDigit s := by
  cases s <;> rfl

theorem at_behindSign (hs : buffer.At offset s) :
    buffer.At (if buffer.reads offset '+' || buffer.reads offset '-' then offset + 1 else offset)
      (behindSign s) := by
  rw [hs.reads_eq (by decide), hs.reads_eq (by decide)]
  cases s with
  | nil => exact hs
  | cons c s =>
      by_cases hc : c = '+' ∨ c = '-'
      · have hascii : c.toNat < 128 := by rcases hc with rfl | rfl <;> decide
        simpa [behindSign, hc] using hs.tail hascii
      · simpa [behindSign, hc] using hs

theorem exponentStop_eq (hs : buffer.At offset s) :
    syn.exponentStop buffer offset =
      buffer.offsetOf ((syn.behindExponent? s).getD s) := by
  rw [exponentStop, hs.reads_eq (by decide), hs.reads_eq (by decide)]
  cases s with
  | nil => exact hs.eq_offsetOf
  | cons c s =>
      by_cases hc : c = 'e' ∨ c = 'E'
      · have hascii : c.toNat < 128 := by rcases hc with rfl | rfl <;> decide
        have htail := hs.tail hascii
        have hdigits := at_behindSign htail
        have hletter : (some c == some 'e' || some c == some 'E') = true := by simpa using hc
        rw [List.head?_cons, if_pos hletter]
        simp only [hdigits.readsAny_eq, head?_any_digits, syn.digitsStop_eq _ hdigits,
          behindExponent?, hc, true_and]
        split
        · rfl
        · exact hs.eq_offsetOf
      · have hletter : ¬ (some c == some 'e' || some c == some 'E') = true := by simpa using hc
        rw [List.head?_cons, if_neg hletter, behindExponent?, if_neg fun h => hc h.1]
        exact hs.eq_offsetOf

theorem ne_of_behindExponent? {rest : List Char} (h : syn.behindExponent? s = some rest) :
    rest ≠ s := by
  cases s with
  | nil => cases h
  | cons e s =>
      rw [behindExponent?] at h
      split at h
      · cases h
        intro heq
        have hle := ((behindDigits_suffix syn .digits _).trans (behindSign_suffix s)).length_le
        rw [heq, List.length_cons] at hle
        exact absurd hle (Nat.not_succ_le_self _)
      · cases h

theorem readExponent_eq {kind : Kind} (hs : buffer.At offset s) :
    syn.readExponent buffer ⟨kind, offset⟩ = (syn.withExponent ⟨kind, s⟩).inPlace buffer := by
  simp only [readExponent, withExponent, syn.exponentStop_eq hs]
  cases hrest : syn.behindExponent? s with
  | none =>
      rw [Option.getD_none, if_pos hs.eq_offsetOf.symm]
      exact (hs.inPlace_mk kind).symm
  | some rest =>
      have hne := syn.ne_of_behindExponent? hrest
      rw [Option.getD_some, if_neg (mt (hs.offsetOf_eq_iff (behindExponent?_suffix hrest)).1 hne)]
      rfl

theorem readSuffix_eq {kind : Kind} (hs : buffer.At offset s) :
    syn.readSuffix buffer ⟨kind, offset⟩ = (syn.withSuffix kind s).inPlace buffer := by
  have hsuffix := behindWord_suffix .identContinue s
  have hword : before s (behindWord .identContinue s) = wordOf .identContinue s :=
    before_dropWhile ..
  have hempty : buffer.offsetOf (behindWord .identContinue s) = offset ↔
      String.ofList (wordOf .identContinue s) = "" := by
    rw [hs.offsetOf_eq_iff hsuffix, String.ofList_eq_empty_iff]
    have hsplit := wordOf_append_behindWord .identContinue s
    constructor
    · intro heq
      rw [heq] at hsplit
      exact List.append_left_eq_self.1 hsplit
    · intro hnil
      rw [hnil] at hsplit
      exact hsplit
  simp only [readSuffix, withSuffix, hs.word_eq, hs.slice_eq hsuffix, hword, hempty]
  repeat' split
  all_goals first | rfl | exact (hs.inPlace_mk kind).symm

theorem readEnding_eq {kind : Kind} (hs : buffer.At offset s) :
    syn.readEnding buffer ⟨kind, offset⟩ = (syn.ending ⟨kind, s⟩).inPlace buffer := by
  have hrest := hs.of_suffix (syn.withExponent_suffix ⟨kind, s⟩)
  rw [readEnding, syn.readExponent_eq hs, ending]
  exact syn.readSuffix_eq hrest

theorem readFraction_eq (hs : buffer.At offset s) :
    syn.readFraction buffer offset = (syn.fraction s).inPlace buffer := by
  rw [readFraction, hs.reads_eq (by decide)]
  cases s with
  | nil => exact (hs.inPlace_mk _).symm
  | cons c s =>
      by_cases hc : c = '.'
      · subst hc
        have htail := hs.tail (by decide)
        simp only [List.head?_cons, htail.readsAny_eq, head?_any_digits, htail.startsWord_eq,
          htail.reads_eq (c := '.') (by decide), syn.digitsStop_eq _ htail, fraction]
        cases atDigit s with
        | true => rfl
        | false =>
            cases hword : atWord .identStart s <;> by_cases hhead : s.head? = some '.'
            all_goals simp [hhead, hs.inPlace_mk, htail.inPlace_mk]
      · have hpoint : (some c == some '.') = false := by simpa using hc
        have hfraction : syn.fraction (c :: s) = ⟨.numberInteger, c :: s⟩ := by
          unfold fraction
          split
          · next heq => cases heq; exact absurd rfl hc
          · rfl
        rw [List.head?_cons, hpoint, hfraction]
        exact (hs.inPlace_mk _).symm

theorem ascii_of_radix? {letter : Char} {radix : AsciiSet × Kind}
    (h : syn.radix? letter = some radix) : letter.toNat < 128 ∧ letter ≠ '\x00' := by
  rw [radix?] at h
  repeat' split at h
  · next hletter => rcases hletter.2 with rfl | rfl <;> decide
  · next hletter => rcases hletter.2 with rfl | rfl <;> decide
  · next hletter => rcases hletter.2 with rfl | rfl <;> decide
  · cases h

/-- No letter of a radix is a byte of anything else. -/
theorem radix?_current (hs : buffer.At offset s) :
    syn.radix? (buffer.current offset) = s.head?.bind syn.radix? := by
  by_cases hascii : ∃ c ∈ s.head?, c.toNat < 128
  · obtain ⟨c, hc, hlt⟩ := hascii
    obtain ⟨t, rfl⟩ := List.head?_eq_some_iff.1 hc
    rw [hs.current_cons hlt]
    rfl
  · have hnot : ∀ c ∈ s.head?, ¬ c.toNat < 128 := fun c hc hlt => hascii ⟨c, hc, hlt⟩
    have hcurrent : syn.radix? (buffer.current offset) = none := by
      refine Option.eq_none_iff_forall_ne_some.2 fun radix hradix => ?_
      obtain ⟨hlt, hne⟩ := syn.ascii_of_radix? hradix
      rcases hs.current_of_not_ascii hnot with heq | hle
      · exact hne heq
      · exact absurd hlt (Nat.not_lt.2 hle)
    rw [hcurrent]
    cases s with
    | nil => rfl
    | cons c s =>
        exact (Option.eq_none_iff_forall_ne_some.2 fun radix hradix =>
          hnot c rfl (syn.ascii_of_radix? hradix).1).symm

theorem read_point (hs : buffer.At offset ('.' :: s)) :
    syn.read buffer offset = (syn.scan ('.' :: s)).map (Match.inPlace buffer) := by
  have htail := hs.tail (by decide)
  have hdigits := htail.of_suffix (syn.behindDigits_suffix .digits s)
  rw [read, hs.reads_eq (by decide), List.head?_cons, if_pos (by rfl), scan, if_pos rfl,
    htail.readsAny_eq, head?_any_digits, syn.digitsStop_eq _ htail, syn.readEnding_eq hdigits]
  cases syn.leadingDot <;> cases atDigit s <;> rfl

theorem readDecimal_eq (hc : AsciiSet.digits.has c = true) (hs : buffer.At offset (c :: s)) :
    syn.readEnding buffer (syn.readFraction buffer (syn.digitsStop .digits buffer offset)) =
      (syn.scanDecimal s).inPlace buffer := by
  have hdigits : syn.behindDigits .digits (c :: s) = syn.behindDigits .digits s :=
    List.dropWhile_cons_of_pos (by rw [isDigitOrGap, hc, Bool.true_or])
  have hrest := (hs.tail (AsciiSet.digits.ascii c hc)).of_suffix (syn.behindDigits_suffix .digits s)
  rw [syn.digitsStop_eq _ hs, hdigits, syn.readFraction_eq hrest]
  exact syn.readEnding_eq (hrest.of_suffix (syn.fraction_suffix _))

theorem readRadix_eq {letter : Char} {set : AsciiSet} {kind : Kind}
    (hradix : syn.radix? letter = some (set, kind)) (hs : buffer.At offset ('0' :: letter :: s)) :
    some (syn.readSuffix buffer ⟨kind, syn.digitsStop set buffer (offset + 2)⟩) =
      (syn.scanRadix (letter :: s)).map (Match.inPlace buffer) := by
  have htail : buffer.At (offset + 1) (letter :: s) := hs.tail (by decide)
  have hbehind : buffer.At (offset + 2) s := htail.tail (syn.ascii_of_radix? hradix).1
  have hrest := hbehind.of_suffix (syn.behindDigits_suffix set s)
  rw [scanRadix, hradix, syn.digitsStop_eq set hbehind, syn.readSuffix_eq hrest]
  rfl

theorem read_digit (hpoint : c ≠ '.') (hc : AsciiSet.digits.has c = true)
    (hs : buffer.At offset (c :: s)) :
    syn.read buffer offset = (syn.scan (c :: s)).map (Match.inPlace buffer) := by
  have htail := hs.tail (AsciiSet.digits.ascii c hc)
  rw [read, hs.reads_eq (by decide), List.head?_cons, if_neg (by simpa using hpoint),
    hs.readsAny_eq, List.head?_cons, Option.any_some, if_pos hc, scan, if_neg hpoint, if_pos hc,
    syn.readDecimal_eq hc hs, hs.reads_eq (by decide), List.head?_cons, syn.radix?_current htail]
  by_cases hzero : c = '0'
  · subst hzero
    rw [if_pos (by rfl), if_pos rfl]
    cases s with
    | nil => rfl
    | cons letter s =>
        rw [List.head?_cons, Option.bind_some]
        cases hradix : syn.radix? letter with
        | none =>
            rw [scanRadix, hradix]
            rfl
        | some radix =>
            have hread := syn.readRadix_eq hradix hs
            dsimp only
            rw [hread, scanRadix, hradix]
            rfl
  · rw [if_neg (by simpa using hzero), if_neg hzero]
    rfl

theorem follows_read : Reader.Follows syn.read syn.scan := by
  intro buffer offset s hs
  cases s with
  | nil =>
      rw [read, hs.reads_eq (by decide), hs.readsAny_eq]
      rfl
  | cons c s =>
      by_cases hpoint : c = '.'
      · subst hpoint
        exact syn.read_point hs
      · cases hc : AsciiSet.digits.has c with
        | true => exact syn.read_digit hpoint hc hs
        | false =>
            rw [read, hs.reads_eq (by decide), List.head?_cons, if_neg (by simpa using hpoint),
              hs.readsAny_eq, List.head?_cons, Option.any_some, hc, scan, if_neg hpoint, hc]
            rfl

end NumberSyntax

end Highlight
