import Highlight.Language.Go
import Highlight.Language.Json
import Highlight.Language.Rust
import Highlight.Proofs.GoTokens
import Highlight.Proofs.Readers
import Highlight.Proofs.RustTokens

/-!
# Scanners and lexers

A scanner goes through a buffer, and a lexer through a text that begins where the range does. That
they take the same lexemes is a simulation: between lexemes the states of the two are related, at an
offset at which the buffer has left what the lexer has left, and a step of both ends so again. What
relates the states is up to the language, since a scanner remembers offsets where a lexer remembers
texts.

Where nothing depends on what came before there is nothing to relate, and it is enough that each
reader of the language follows a rule. So it is with the three languages here.
-/

namespace Highlight

variable {σ τ : Type}

/-- Whether the steps of a scanner in a buffer are those of a lexer on the text that is left, with a
relation between the states of the two. -/
structure Scanner.Simulates (scanner : Scanner σ) (lexer : Lexer τ)
    (related : Buffer → Nat → List Char → σ → τ → Prop) : Prop where
  start : ∀ buffer offset s, buffer.At offset s →
    related buffer offset s (scanner.start offset) lexer.start
  next_nil : ∀ buffer offset place state, buffer.At offset [] →
    related buffer offset [] place state → scanner.next buffer offset place = none
  next_cons : ∀ buffer offset c s place state, buffer.At offset (c :: s) →
    related buffer offset (c :: s) place state →
    ∃ place', scanner.next buffer offset place =
        some ⟨(lexer.step state c s).kind, buffer.offsetOf (lexer.step state c s).rest, place'⟩ ∧
      related buffer (buffer.offsetOf (lexer.step state c s).rest) (lexer.step state c s).rest
        place' (lexer.step state c s).state

namespace Scanner.Simulates

variable {scanner : Scanner σ} {lexer : Lexer τ}
  {related : Buffer → Nat → List Char → σ → τ → Prop}

/-- A simulation takes a run to a run. -/
theorem run_eq (h : scanner.Simulates lexer related) {buffer : Buffer} {offset : Nat}
    {s : List Char} {place : σ} {state : τ} (hs : buffer.At offset s)
    (hrelated : related buffer offset s place state) :
    scanner.run buffer offset place =
      (lexer.run state s).map fun lexeme => (lexeme.kind, lexeme.size) := by
  induction hlength : s.length using Nat.strongRecOn generalizing s offset place state with
  | _ length ih =>
      subst hlength
      cases s with
      | nil =>
          rw [Scanner.run, h.next_nil buffer offset place state hs hrelated, Lexer.run_nil]
          rfl
      | cons c s =>
          obtain ⟨place', hnext, hrelated'⟩ := h.next_cons buffer offset c s place state hs hrelated
          have hsuffix := lexer.rest_suffix state c s
          have hs' := hs.of_suffix (lexer.step_suffix_cons state c s)
          have hsize := hs.offsetOf_of_suffix (lexer.step_suffix_cons state c s)
          have hmore := ih _ (Nat.lt_succ_of_le hsuffix.length_le) hs' hrelated' rfl
          rw [Scanner.run, hnext, Lexer.run_cons, List.map_cons, ← hmore]
          dsimp only
          rw [if_pos ⟨hs.lt_offsetOf hsuffix, hs'.le_length⟩, hsize, Nat.add_sub_cancel_left]
          rfl

/-- The kinds and sizes that a scanner hands out are those of the lexemes of what is left. -/
theorem lex_eq (h : scanner.Simulates lexer related) {buffer : Buffer} {start : Nat}
    {s : List Char} (hs : buffer.At start s) :
    scanner.lex buffer start =
      (lexer.lex s).map fun lexeme => (lexeme.kind, lexeme.size) :=
  h.run_eq hs (h.start buffer start s hs)

end Scanner.Simulates

/-- A language in which nothing depends on what came before. -/
theorem simulates_ofReaders {readers : List Reader} {rules : List Rule}
    (hconsumes : ∀ rule ∈ rules, Rule.Consumes rule)
    (h : List.Forall₂ Reader.Follows readers rules) :
    (Scanner.ofReaders readers).Simulates (.ofRules rules hconsumes) fun _ _ _ _ _ => True where
  start _ _ _ _ := trivial
  next_nil buffer offset _ _ hs _ := if_neg (Nat.not_lt.2 (hs.length_le_iff.2 rfl))
  next_cons buffer offset c s _ _ hs _ := by
    refine ⟨(), ?_, trivial⟩
    have hfound := Reader.orCharacter_eq .error hs (Reader.follows_firstOf h buffer offset _ hs)
    simp only [Scanner.ofReaders, if_pos hs.lt_length, hfound]
    rfl

variable {buffer : Buffer} {offset : Nat} {s : List Char}

namespace Json

open NumberSyntax

theorem follows_readString : Reader.Follows readString scanString := by
  intro buffer offset s hs
  rw [readString, hs.reads_eq (by decide)]
  cases s with
  | nil => rfl
  | cons c s =>
      rw [scanString]
      by_cases hc : c = '\x22'
      · subst hc
        have htail := hs.tail (by decide)
        have hrest := htail.of_suffix (Quoted.rest_suffix '\x22' true false s)
        have hcolon := hrest.of_suffix (List.dropWhile_suffix blanks.has)
        simp only [htail.quoted_eq (by decide : '\x22'.toNat < 128), hrest.skipWhile_eq,
          hcolon.reads_eq (by decide : ':'.toNat < 128), beq_iff_eq, beforeColon, List.head?_cons,
          if_true, decide_eq_true_eq]
        rfl
      · simp [hc]

theorem readFraction_eq (hs : buffer.At offset s) :
    readFraction buffer offset = (fraction s).inPlace buffer := by
  rw [readFraction, hs.reads_eq (by decide)]
  cases s with
  | nil => exact (hs.inPlace_mk _).symm
  | cons c s =>
      by_cases hc : c = '.'
      · subst hc
        have htail := hs.tail (by decide)
        rw [htail.readsAny_eq, head?_any_digits, plain.digitsStop_eq _ htail, fraction]
        cases atDigit s with
        | true => rfl
        | false => exact (hs.inPlace_mk _).symm
      · have hfraction : fraction (c :: s) = ⟨.numberInteger, c :: s⟩ := by
          unfold fraction
          split
          · next heq => cases heq; exact absurd rfl hc
          · rfl
        rw [hfraction, hs.inPlace_mk]
        simp [hc]

theorem follows_readNumber : Reader.Follows readNumber scanNumber := by
  intro buffer offset s hs
  have hdigits : buffer.At (if buffer.reads offset '-' then offset + 1 else offset)
      (behindMinus s) := by
    rw [hs.reads_eq (by decide)]
    cases s with
    | nil => exact hs
    | cons c s =>
        by_cases hc : c = '-'
        · subst hc
          exact hs.tail (by decide)
        · simpa [behindMinus, hc] using hs
  have hrest := hdigits.of_suffix (plain.behindDigits_suffix .digits (behindMinus s))
  have hfraction := hrest.of_suffix (fraction_suffix _)
  rw [readNumber, scanNumber, hdigits.readsAny_eq, head?_any_digits,
    plain.digitsStop_eq _ hdigits, readFraction_eq hrest]
  split
  · exact congrArg some (plain.readExponent_eq hfraction)
  · rfl

theorem follows_readConstant : Reader.Follows readConstant scanConstant := by
  intro buffer offset s hs
  have hword (word : String) :
      (if buffer.startsWith offset word.toList then
        some (Span.mk .keywordConstant (offset + byteSize word.toList)) else none) =
      (word.toList.isPrefixOf? s).map fun rest =>
        Span.mk .keywordConstant (buffer.offsetOf rest) := by
    rw [hs.startsWith_eq, ← List.isSome_isPrefixOf?_eq_isPrefixOf]
    cases hrest : word.toList.isPrefixOf? s with
    | none => rfl
    | some rest => exact congrArg (some <| Span.mk _ ·) (hs.isPrefixOf? hrest).eq_offsetOf
  rw [readConstant, scanConstant, Option.map_map, List.map_findSome?]
  exact congrArg (constants.findSome? ·) (funext hword)

theorem simulates :
    scanner.Simulates lexer fun _ _ _ _ _ => True :=
  simulates_ofReaders consumes_rules <|
    .cons (Reader.follows_run _ _) <| .cons follows_readString <| .cons follows_readNumber <|
    .cons follows_readConstant <| .cons (Reader.follows_single _ _) .nil

end Json

namespace Go

theorem follows_readRune : Reader.Follows readRune scanRune := by
  intro buffer offset s hs
  rw [readRune, hs.reads_eq (by decide)]
  cases s with
  | nil => rfl
  | cons c s =>
      rw [scanRune]
      by_cases hc : c = '\x27'
      · subst hc
        rw [readCharacter_eq hs]
        rfl
      · simp [hc]

theorem simulates : scanner.Simulates lexer fun _ _ _ _ _ => True :=
  simulates_ofReaders consumes_rules <|
    .cons (Reader.follows_run _ _) <| .cons comments.follows_read <|
    .cons (StringSyntax.follows_read (by decide)) <| .cons follows_readRune <|
    .cons numbers.follows_read <| .cons vocabulary.follows_read <|
    .cons (OperatorSyntax.follows_read code.clear.operators) <|
    .cons (Reader.follows_single _ _) .nil

end Go

namespace Rust

theorem opensCharacterAt_eq (hs : buffer.At offset s) :
    opensCharacterAt buffer offset = opensCharacter s := by
  rw [opensCharacterAt, hs.reads_eq (by decide)]
  cases s with
  | nil =>
      have hnext : buffer.next offset = buffer.offsetOf [] := hs.seek_eq ByteScan.encodes_character
      rw [hnext, (hs.of_suffix List.suffix_rfl).reads_eq (by decide)]
      rfl
  | cons c s =>
      have hbehind := hs.of_suffix (List.suffix_cons c s)
      rw [hs.next_cons, hbehind.reads_eq (by decide)]
      rfl

theorem follows_readQuote : Reader.Follows readQuote scanQuote := by
  intro buffer offset s hs
  rw [readQuote, hs.reads_eq (by decide)]
  cases s with
  | nil => rfl
  | cons c s =>
      rw [scanQuote]
      by_cases hc : c = '\x27'
      · subst hc
        have htail := hs.tail (by decide)
        rw [opensCharacterAt_eq htail, readCharacter_eq hs, htail.identifier?_eq]
        cases opensCharacter s with
        | true => rfl
        | false =>
            cases behindIdentifier? s with
            | some rest => rfl
            | none => exact congrArg some (htail.inPlace_mk .error).symm
      · simp [hc]

theorem follows_readByte : Reader.Follows readByte scanByte := by
  intro buffer offset s hs
  rw [readByte, hs.startsWith_eq]
  by_cases hprefix : ['b', '\x27'] <+: s
  · obtain ⟨t, rfl⟩ := hprefix
    rw [readCharacter_eq (hs.tail (by decide))]
    rfl
  · have hscan : scanByte s = none := by
      unfold scanByte
      split
      · exact absurd ⟨_, rfl⟩ hprefix
      · rfl
    rw [if_neg (mt List.isPrefixOf_iff_prefix.1 hprefix), hscan]
    rfl

theorem follows_readRawIdentifier : Reader.Follows readRawIdentifier scanRawIdentifier := by
  intro buffer offset s hs
  rw [readRawIdentifier, hs.startsWith_eq]
  by_cases hprefix : ['r', '#'] <+: s
  · obtain ⟨t, rfl⟩ := hprefix
    have hbehind := (hs.tail (by decide)).tail (by decide)
    rw [hbehind.identifier?_eq]
    show ((behindIdentifier? t).map buffer.offsetOf).map _ = ((behindIdentifier? t).map _).map _
    rw [Option.map_map, Option.map_map]
    rfl
  · have hscan : scanRawIdentifier s = none := by
      unfold scanRawIdentifier
      split
      · exact absurd ⟨_, rfl⟩ hprefix
      · rfl
    rw [if_neg (mt List.isPrefixOf_iff_prefix.1 hprefix), hscan]
    rfl

theorem pathStop_eq (hs : buffer.At offset s) :
    pathStop buffer offset = buffer.offsetOf (behindPath s) := by
  induction hlength : s.length using Nat.strongRecOn generalizing s offset with
  | _ length ih =>
      subst hlength
      have hidentifier := hs.identifier?_eq
      rw [pathStop, behindPath.eq_def]
      split
      · next hnone =>
          rw [hnone] at hidentifier
          rw [Option.map_eq_none_iff.1 hidentifier.symm]
          exact hs.eq_offsetOf
      · next stop hstop =>
          rw [hstop] at hidentifier
          obtain ⟨rest, hrest, rfl⟩ := Option.map_eq_some_iff.1 hidentifier.symm
          have hsuffix := behindIdentifier?_suffix hrest
          have hbehind := hs.of_suffix hsuffix
          rw [hrest, hbehind.startsWith_eq]
          by_cases hprefix : [':', ':'] <+: rest
          · obtain ⟨t, rfl⟩ := hprefix
            have hlt : t.length < s.length := by
              have hle := hsuffix.length_le
              simp only [List.length_append, List.length_cons] at hle
              omega
            exact ih _ hlt ((hbehind.tail (by decide)).tail (by decide)) rfl
          · rw [dif_neg (mt List.isPrefixOf_iff_prefix.1 hprefix)]
            split
            · next heq => cases heq; exact absurd ⟨_, rfl⟩ hprefix
            · next heq => cases heq; rfl
            · next heq => cases heq

theorem follows_readAttribute : Reader.Follows readAttribute scanAttribute := by
  intro buffer offset s hs
  rw [readAttribute, hs.reads_eq (by decide)]
  cases s with
  | nil => rfl
  | cons c s =>
      by_cases hc : c = '#'
      · subst hc
        have htail := hs.tail (by decide)
        have hbracket : buffer.At
            (if buffer.reads (offset + 1) '!' then offset + 2 else offset + 1) (behindBang s) := by
          rw [htail.reads_eq (by decide)]
          cases s with
          | nil => exact htail
          | cons d s =>
              by_cases hd : d = '!'
              · subst hd
                exact htail.tail (by decide)
              · simpa [behindBang, hd] using htail
        rw [hbracket.reads_eq (by decide), scanAttribute]
        cases hbang : behindBang s with
        | nil => rfl
        | cons d t =>
            rw [hbang] at hbracket
            by_cases hd : d = '['
            · subst hd
              rw [pathStop_eq (hbracket.tail (by decide))]
              rfl
            · simp [hd]
      · have hscan : scanAttribute (c :: s) = none := by
          unfold scanAttribute
          split
          · next heq => cases heq; exact absurd rfl hc
          · rfl
        rw [hscan]
        simp [hc]

theorem follows_readWord : Reader.Follows readWord scanWord := by
  intro buffer offset s hs
  rw [readWord, hs.identifier?_eq, scanWord]
  cases hrest : behindIdentifier? s with
  | none => rfl
  | some rest =>
      have hsuffix := behindIdentifier?_suffix hrest
      have hbehind := hs.of_suffix hsuffix
      simp only [Option.map_some, hs.slice_eq hsuffix, before_of_behindIdentifier? hrest,
        hbehind.reads_eq (by decide : '!'.toNat < 128)]
      cases rest with
      | nil => rfl
      | cons c t =>
          by_cases hc : c = '!'
          · subst hc
            have htail := hbehind.tail (by decide)
            rw [htail.reads_eq (by decide), htail.eq_offsetOf]
            cases hkind : (vocabulary.kind (identifierOf s)).isKeyword <;>
              by_cases hhead : t.head? = some '='
            all_goals simp [hhead, Match.inPlace]
          · simp [hc, Match.inPlace]

theorem simulates : scanner.Simulates lexer fun _ _ _ _ _ => True :=
  simulates_ofReaders consumes_rules <|
    .cons (Reader.follows_run _ _) <| .cons comments.follows_read <|
    .cons follows_readQuote <| .cons follows_readByte <|
    .cons (StringSyntax.follows_read (by decide)) <| .cons follows_readRawIdentifier <|
    .cons numbers.follows_read <| .cons follows_readAttribute <| .cons follows_readWord <|
    .cons (OperatorSyntax.follows_read code.clear.operators) <|
    .cons (Reader.follows_single _ _) .nil

end Rust

end Highlight
