import Highlight.Offset
import Highlight.Proofs.Boundary
import Highlight.Proofs.GoTokens
import Highlight.Proofs.JavaScriptTokens
import Highlight.Proofs.PythonTokens
import Highlight.Proofs.RustTokens

/-!
# Numbers by offset

A number scan that is asked at an offset answers with a kind and the offset behind a literal. Two
things are to be known of the answer. Where a literal stands, the answer is all of it and not more,
and this depends on what the language makes a suffix of. And whatever stands there, what the answer
covers is a literal of the kind it gives, in any language: every part of a literal is given back
whole where it turns out to be none, an exponent without digits as well as a suffix that no one
knows.

To the second there is an exception. A zero and the letter of a radix are taken for a literal before
there is any digit, and are not given back. This is the only one: where a digit is in the run behind
the letter, or no radix is begun at all, what is taken is a literal.

A point is the one part that is decided by what follows it. In front of a word it is left to
whatever comes behind the number, and an exponent begins like a word, and so does a suffix. So there
is a float that ends with its point, and none that goes on behind it without a digit.
-/

namespace Highlight

namespace Offset

variable {text : List Char} {offset : Nat} {rule : Rule} {found : Match}

/-- What is in front of a character of one byte ends at a boundary: from inside a character the text
goes on with that character, which is longer. -/
theorem isBoundary_of_dropBytes {c : Char} {s : List Char} (hoffset : offset ≤ byteSize text)
    (hc : c.utf8Size = 1) (h : dropBytes offset text = c :: s) : IsBoundary text offset := by
  induction text generalizing offset with
  | nil => cases h
  | cons d text ih =>
      rw [dropBytes] at h
      split at h
      · next hle =>
          rw [byteSize_cons] at hoffset
          exact (isBoundary_cons_iff hle).2 (ih (by omega) h)
      · next hlt =>
          obtain ⟨rfl, -⟩ := List.cons.inj h
          obtain rfl : offset = 0 := by omega
          exact isBoundary_zero _

/-- A rule that begins with an ASCII character answers between two characters only, and what it
answers is a piece of the text. -/
theorem exists_of_recognise? {kind : Kind} {stop : Nat} (hconsumes : rule.Consumes)
    (hascii : ∀ s found, rule s = some found → ∃ c t, s = c :: t ∧ c.toNat < 128)
    (h : recognise? rule text offset = some (kind, stop)) :
    ∃ front w rest, text = front ++ (w ++ rest) ∧ byteSize front = offset ∧
      byteSize (front ++ w) = stop ∧ rule (w ++ rest) = some ⟨kind, rest⟩ := by
  simp only [recognise?, from?, Option.bind_eq_bind, Option.bind_eq_some_iff, Option.pure_def,
    Option.some.injEq, Prod.mk.injEq, Option.ite_none_right_eq_some] at h
  obtain ⟨s, ⟨hoffset, hs⟩, found, hfound, rfl, rfl⟩ := h
  obtain ⟨c, t, rfl, hc⟩ := hascii s found hfound
  obtain ⟨front, back, rfl, rfl⟩ :=
    isBoundary_iff_append.1 (isBoundary_of_dropBytes hoffset (utf8Size_of_ascii hc) hs)
  rw [dropBytes_byteSize_append] at hs
  obtain ⟨w, hw⟩ := (hconsumes c t found hfound).trans (List.suffix_cons c t)
  rw [← hw] at hfound hs
  refine ⟨front, w, found.rest, congrArg (front ++ ·) hs, rfl, ?_, hfound⟩
  rw [ofRest, hs, ← List.append_assoc, byteSize_append (front ++ w), Nat.add_sub_cancel]

end Offset

namespace NumberSyntax

variable {syn : NumberSyntax} {set : AsciiSet} {kind base : Kind} {w s rest text : List Char}
  {offset stop : Nat} {r : Match}

/-- The number literals of the languages that share their scan. -/
def shared : List NumberSyntax := [Python.numbers, JavaScript.numbers, Rust.numbers, Go.numbers]

theorem clear_of_shared (h : syn ∈ shared) : syn.Clear := by
  simp only [shared, List.mem_cons, List.not_mem_nil, or_false] at h
  rcases h with rfl | rfl | rfl | rfl
  · exact Python.code.clear.numbers
  · exact JavaScript.code.clear.numbers
  · exact Rust.code.clear.numbers
  · exact Go.code.clear.numbers

/-- In front of what goes on no word a literal is recognised, with its kind and its end. A point
goes on no word either, and is told from a fraction unless the literal is digits alone, or digits
and a point. -/
theorem recognise?_literal (hsyn : syn ∈ shared) (h : syn.Literal kind w)
    (hrest : Stops (continuesWord .identContinue) rest)
    (hpoint : syn.behindDigits .digits w ∈ [[], ['.']] → rest.head? ≠ some '.')
    (front : List Char) :
    Offset.recognise? syn.scan (front ++ (w ++ rest)) (byteSize front) =
      some (kind, byteSize (front ++ w)) :=
  Offset.recognise?_append front (h.scan_append (clear_of_shared hsyn) hrest hpoint)

/-- Letters of an exponent and of a suffix among digits, and a point that is not looked at. -/
theorem recognise?_literal_point :
    Offset.recognise? Rust.numbers.scan "é1_0.5e-3f64.g".toList 2 = some (.numberFloat, 13) ∧
      Offset.recognise? Rust.numbers.scan "é0xe_fu8.g".toList 2 = some (.numberHex, 9) := by
  have hfloat : Rust.numbers.Literal .numberFloat "1_0.5e-3f64".toList :=
    @Literal.decimal Rust.numbers .numberFloat ['1', '_', '0'] ['.', '5'] ['e', '-', '3']
      ['f', '6', '4'] (.run (by decide) (by decide)) (.digits (.run (by decide) (by decide)))
      (@Exponent.digits _ 'e' ['-'] ['3'] (.inl rfl) (by decide) (.run (by decide) (by decide)))
      (@Suffix.float Rust.numbers _ "f64" (.inr rfl) (by decide))
  have hhex : Rust.numbers.Literal .numberHex "0xe_fu8".toList :=
    @Literal.radix Rust.numbers .numberHex .numberHex .hexDigits 'x' ['e', '_', 'f'] ['u', '8']
      rfl (by decide) ⟨'e', by decide, by decide⟩
      (@Suffix.integer Rust.numbers _ "u8" (by decide) (by decide))
  have hshared : Rust.numbers ∈ shared := by simp [shared]
  have hrest : Stops (continuesWord .identContinue) ['.', 'g'] := .cons (by decide) ['g']
  exact ⟨recognise?_literal hshared hfloat hrest (by decide) ['é'],
    recognise?_literal hshared hhex hrest (by decide) ['é']⟩

/-! ## What is taken is a literal

From the front on a scan takes what is a part of the grammar, or it takes nothing. So what it has
taken in the end is a literal, unless a part was left out that the grammar has: the digits behind
the letter of a radix, and nothing else. -/

/-- What may be taken for a literal in any language. Behind a point without digits there may be a
suffix, as long as no letter begins it. -/
inductive WellFormed (syn : NumberSyntax) : Kind → List Char → Prop where
  | literal {kind : Kind} {w : List Char} (h : syn.Literal kind w) : WellFormed syn kind w
  | pointed {kind : Kind} {ds suffix : List Char} (hds : syn.Digits ds)
      (hsuffix : syn.Suffix .numberFloat suffix kind) :
      WellFormed syn kind (ds ++ '.' :: suffix)

/-- Whether a text begins with a zero and the letter of a radix, and no digit of that radix is in
the run behind them. -/
def Digitless (syn : NumberSyntax) (s : List Char) : Prop :=
  ∃ letter t set base, s = '0' :: letter :: t ∧ syn.radix? letter = some (set, base) ∧
    ∀ c ∈ t.takeWhile (syn.isDigitOrGap set), set.has c = false

/-- The kinds of literals with a radix. -/
def radixKinds : List Kind := [.numberHex, .numberOct, .numberBin]

theorem exists_suffix (syn : NumberSyntax) (kind : Kind) (s : List Char) :
    ∃ suffix, s = suffix ++ (syn.withSuffix kind s).rest ∧
      syn.Suffix kind suffix (syn.withSuffix kind s).kind := by
  have hsplit := (wordOf_append_behindWord .identContinue s).symm
  have hword : (String.ofList (wordOf .identContinue s)).toList = wordOf .identContinue s :=
    String.toList_ofList
  unfold withSuffix
  dsimp only
  split
  · exact ⟨[], rfl, .none⟩
  · split
    · next h => exact ⟨_, hsplit, hword ▸ .imaginary h.1 h.2⟩
    · split
      · next h => exact ⟨_, hsplit, hword ▸ .float h.1 h.2⟩
      · split
        · next h => exact ⟨_, hsplit, hword ▸ .integer h.1 h.2⟩
        · exact ⟨[], rfl, .none⟩

theorem exists_digits (syn : NumberSyntax) (h : atDigit s = true) :
    ∃ ds, s = ds ++ syn.behindDigits .digits s ∧ syn.Digits ds := by
  cases s with
  | nil => cases h
  | cons d s =>
      refine ⟨d :: s.takeWhile (syn.isDigitOrGap .digits), ?_, .run h fun c hc => ?_⟩
      · rw [behindDigits, List.dropWhile_cons_of_pos (isDigitOrGap_of_has h), List.cons_append,
          List.takeWhile_append_dropWhile]
      · exact List.mem_takeWhile_imp hc

theorem exists_sign (s : List Char) :
    ∃ sign, s = sign ++ behindSign s ∧ sign ∈ [[], ['+'], ['-']] := by
  cases s with
  | nil => exact ⟨[], rfl, by decide⟩
  | cons c s =>
      by_cases hc : c = '+' ∨ c = '-'
      · refine ⟨[c], ?_, ?_⟩
        · rw [behindSign, if_pos hc]
          rfl
        · rcases hc with rfl | rfl <;> decide
      · refine ⟨[], ?_, by decide⟩
        rw [behindSign, if_neg hc]
        rfl

theorem exists_exponent (syn : NumberSyntax) (literal : Match) :
    ∃ exp, literal.rest = exp ++ (syn.withExponent literal).rest ∧ syn.Exponent exp ∧
      (syn.withExponent literal).kind = if exp = [] then literal.kind else .numberFloat := by
  unfold withExponent
  split
  · next rest h =>
      cases hrest : literal.rest with
      | nil =>
          rw [hrest] at h
          cases h
      | cons e s =>
          rw [hrest, behindExponent?] at h
          split at h
          · next hexp =>
              cases h
              obtain ⟨sign, hsign, hmem⟩ := exists_sign s
              obtain ⟨ds, hds, hdigits⟩ := exists_digits syn hexp.2
              refine ⟨e :: (sign ++ ds), ?_, .digits hexp.1 hmem hdigits, rfl⟩
              rw [List.cons_append, List.append_assoc, ← hds, ← hsign]
          · cases h
  · exact ⟨[], rfl, .none, rfl⟩

theorem exists_ending (syn : NumberSyntax) (literal : Match) :
    ∃ exp suffix, literal.rest = exp ++ (suffix ++ (syn.ending literal).rest) ∧
      syn.Exponent exp ∧
      syn.Suffix (if exp = [] then literal.kind else .numberFloat) suffix
        (syn.ending literal).kind := by
  obtain ⟨exp, hexp, hexponent, hkind⟩ := exists_exponent syn literal
  obtain ⟨suffix, hsplit, hsuffix⟩ :=
    exists_suffix syn (syn.withExponent literal).kind (syn.withExponent literal).rest
  refine ⟨exp, suffix, ?_, hexponent, ?_⟩
  · rw [hexp]
    exact congrArg (exp ++ ·) hsplit
  · rw [← hkind]
    exact hsuffix

/-- Behind the digits of a decimal literal there is a fraction, or none, or a point in front of
something that begins no word. -/
theorem fraction_cases (syn : NumberSyntax) (s : List Char) :
    (∃ frac, s = frac ++ (syn.fraction s).rest ∧ syn.Fraction frac ∧
      (syn.fraction s).kind = if frac = [] then .numberInteger else .numberFloat) ∨
    ∃ rest, s = '.' :: rest ∧ syn.fraction s = ⟨.numberFloat, rest⟩ ∧
      ¬ atWord .identStart rest = true := by
  unfold fraction
  split
  · next s =>
      split
      · next hdigit =>
          obtain ⟨ds, hds, hdigits⟩ := exists_digits syn hdigit
          exact .inl ⟨'.' :: ds, congrArg ('.' :: ·) hds, .digits hdigits, rfl⟩
      · split
        · next hword => exact .inr ⟨s, rfl, rfl, hword.2⟩
        · exact .inl ⟨[], rfl, .none, rfl⟩
  · exact .inl ⟨[], rfl, .none, rfl⟩

/-- An exponent begins like a word. -/
theorem Exponent.eq_nil_of_not_atWord {exp : List Char} (h : syn.Exponent exp)
    (hword : ¬ atWord .identStart (exp ++ s) = true) : exp = [] := by
  cases h with
  | none => rfl
  | digits he =>
      have hstart : ∀ c ∈ exponentMarks.members, startsWord .identStart c = true := by decide
      refine absurd (hstart _ (AsciiSet.mem_members.2 ?_)) hword
      rcases he with rfl | rfl <;> decide

theorem exists_scanDecimal {d : Char} (hd : AsciiSet.digits.has d = true) (s : List Char) :
    ∃ w, d :: s = w ++ (syn.scanDecimal s).rest ∧ syn.WellFormed (syn.scanDecimal s).kind w := by
  obtain ⟨ds, hsplit, hds⟩ := exists_digits syn (s := d :: s) hd
  have hbehind : syn.behindDigits .digits (d :: s) = syn.behindDigits .digits s :=
    List.dropWhile_cons_of_pos (isDigitOrGap_of_has hd)
  obtain ⟨exp, suffix, hrest, hexp, hsuffix⟩ :=
    exists_ending syn (syn.fraction (syn.behindDigits .digits s))
  rw [hbehind] at hsplit
  rw [hsplit]
  rcases fraction_cases syn (syn.behindDigits .digits s) with
    ⟨frac, hs, hfrac, hkind⟩ | ⟨rest, hs, hpoint, hword⟩
  · rw [hkind, ← decimalKind_eq] at hsuffix
    refine ⟨ds ++ (frac ++ (exp ++ suffix)), ?_, .literal (.decimal hds hfrac hexp hsuffix)⟩
    simp only [List.append_assoc]
    exact congrArg (ds ++ ·) (hs.trans (congrArg (frac ++ ·) hrest))
  · -- An exponent would begin a word, and in front of a word the point is not taken.
    rw [hpoint] at hrest hsuffix
    have hrest : rest = exp ++ (suffix ++ (syn.scanDecimal s).rest) := by
      rw [scanDecimal, hpoint]
      exact hrest
    rw [hrest] at hword
    obtain rfl := hexp.eq_nil_of_not_atWord hword
    have hsuffix : syn.Suffix .numberFloat suffix (syn.scanDecimal s).kind := by
      rw [scanDecimal, hpoint]
      exact hsuffix
    refine ⟨ds ++ '.' :: suffix, ?_, .pointed hds hsuffix⟩
    rw [hs, hrest, List.append_assoc]
    rfl

theorem Suffix.kind_eq (h : syn.Suffix base w kind) (hbase : base ∈ radixKinds) : kind = base := by
  have hdecimal : ¬ (base = .numberInteger ∨ base = .numberFloat) := by
    rintro (rfl | rfl) <;> exact absurd hbase (by decide)
  cases h with
  | none => rfl
  | imaginary h => exact absurd h hdecimal
  | float h => exact absurd h hdecimal
  | integer => rfl

theorem Suffix.notMem_radixKinds (h : syn.Suffix base w kind)
    (hbase : base = .numberInteger ∨ base = .numberFloat) : kind ∉ radixKinds := by
  have hnot : base ∉ radixKinds := by
    rcases hbase with rfl | rfl <;> decide
  cases h with
  | none => exact hnot
  | imaginary => decide
  | float => decide
  | integer => exact hnot

theorem decimalKind_cases (frac exp : List Char) :
    decimalKind frac exp = .numberInteger ∨ decimalKind frac exp = .numberFloat := by
  rw [decimalKind]
  split
  · exact .inl rfl
  · exact .inr rfl

theorem base_mem_of_radix? {letter : Char} (h : syn.radix? letter = some (set, base)) :
    base ∈ radixKinds := by
  unfold radix? at h
  repeat' split at h
  all_goals cases h <;> decide

theorem wellFormed_or_digitless_radix (h : syn.scanRadix s = some r) :
    (∃ w, '0' :: s = w ++ r.rest ∧ syn.WellFormed r.kind w) ∨ syn.Digitless ('0' :: s) := by
  cases s with
  | nil => cases h
  | cons letter t =>
      rw [scanRadix] at h
      split at h
      · cases h
      · next set base hradix =>
          cases h
          by_cases hone : ∃ c ∈ t.takeWhile (syn.isDigitOrGap set), set.has c = true
          · obtain ⟨suffix, hsplit, hsuffix⟩ := exists_suffix syn base (syn.behindDigits set t)
            refine .inl ⟨'0' :: letter :: (t.takeWhile (syn.isDigitOrGap set) ++ suffix), ?_,
              .literal (.radix hradix (fun c hc => List.mem_takeWhile_imp hc) hone hsuffix)⟩
            simp only [List.cons_append, List.append_assoc]
            rw [← hsplit, behindDigits, List.takeWhile_append_dropWhile]
          · refine .inr ⟨letter, t, set, base, rfl, hradix, fun c hc => ?_⟩
            exact Bool.eq_false_iff.2 fun hdigit => hone ⟨c, hc, hdigit⟩

/-- What is taken is a literal, or else it is begun like one with a radix and has no digit. -/
theorem wellFormed_or_digitless (h : syn.scan s = some r) :
    (∃ w, s = w ++ r.rest ∧ syn.WellFormed r.kind w) ∨ syn.Digitless s := by
  cases s with
  | nil => cases h
  | cons c s =>
      simp only [scan] at h
      split at h
      · next hc =>
          subst hc
          split at h
          · next hdot =>
              cases h
              obtain ⟨ds, hsplit, hds⟩ := exists_digits syn hdot.2
              obtain ⟨exp, suffix, hrest, hexp, hsuffix⟩ :=
                exists_ending syn ⟨.numberFloat, syn.behindDigits .digits s⟩
              rw [ite_self] at hsuffix
              refine .inl ⟨'.' :: (ds ++ (exp ++ suffix)), ?_,
                .literal (.leadingPoint hdot.1 hds hexp hsuffix)⟩
              simp only [List.cons_append, List.append_assoc]
              exact congrArg ('.' :: ·) (hsplit.trans (congrArg (ds ++ ·) hrest))
          · cases h
      · split at h
        · next hd =>
            split at h
            · next hzero =>
                subst hzero
                rcases Option.or_eq_some_iff.1 h with h | ⟨-, h⟩
                · exact wellFormed_or_digitless_radix h
                · cases h
                  exact .inl (exists_scanDecimal hd s)
            · cases h
              exact .inl (exists_scanDecimal hd s)
        · cases h

theorem WellFormed.exists_digit (h : syn.WellFormed kind w) (hkind : kind ∈ radixKinds) :
    ∃ letter ds suffix set base, w = '0' :: letter :: (ds ++ suffix) ∧
      syn.radix? letter = some (set, base) ∧ (∀ c ∈ ds, syn.isDigitOrGap set c = true) ∧
      ∃ c ∈ ds, set.has c = true := by
  cases h with
  | literal h =>
      cases h with
      | decimal _ _ _ hsuffix =>
          exact absurd hkind (hsuffix.notMem_radixKinds (decimalKind_cases _ _))
      | leadingPoint _ _ _ hsuffix => exact absurd hkind (hsuffix.notMem_radixKinds (.inr rfl))
      | trailingPoint => exact absurd hkind (by decide)
      | radix hradix hds hone => exact ⟨_, _, _, _, _, rfl, hradix, hds, hone⟩
  | pointed _ hsuffix => exact absurd hkind (hsuffix.notMem_radixKinds (.inr rfl))

/-- The digit of a literal with a radix is in the run behind the letter, whatever follows. -/
theorem WellFormed.not_digitless (h : syn.WellFormed kind w) (hkind : kind ∈ radixKinds)
    (rest : List Char) : ¬ syn.Digitless (w ++ rest) := by
  rintro ⟨letter, t, set, base, hw, hradix, hnone⟩
  obtain ⟨letter', ds, suffix, set', base', rfl, hradix', hds, c, hc, hdigit⟩ :=
    h.exists_digit hkind
  simp only [List.cons_append, List.append_assoc, List.cons.injEq, true_and] at hw
  obtain ⟨rfl, rfl⟩ := hw
  rw [hradix'] at hradix
  obtain ⟨rfl, rfl⟩ := Prod.mk.inj (Option.some.inj hradix)
  have hmem : c ∈ (ds ++ (suffix ++ rest)).takeWhile (syn.isDigitOrGap set') := by
    rw [List.takeWhile_append_of_pos hds]
    exact List.mem_append_left _ hc
  rw [hnone c hmem] at hdigit
  cases hdigit

theorem Digitless.kind_mem (hs : syn.Digitless s) (h : syn.scan s = some r) :
    r.kind ∈ radixKinds := by
  obtain ⟨letter, t, set, base, rfl, hradix, -⟩ := hs
  have hbase := base_mem_of_radix? hradix
  have hscan : syn.scanRadix (letter :: t) =
      some (syn.withSuffix base (syn.behindDigits set t)) := by
    rw [scanRadix, hradix]
  rw [scan, if_neg (by decide), if_pos (by decide), if_pos rfl, hscan, Option.some_or] at h
  cases h
  obtain ⟨suffix, -, hsuffix⟩ := exists_suffix syn base (syn.behindDigits set t)
  rw [hsuffix.kind_eq hbase]
  exact hbase

theorem wellFormed_iff_not_digitless (h : syn.scan (w ++ rest) = some ⟨kind, rest⟩) :
    syn.WellFormed kind w ↔ ¬ syn.Digitless (w ++ rest) := by
  constructor
  · exact fun hw hnone => hw.not_digitless (hnone.kind_mem h) rest hnone
  · intro hdigit
    obtain ⟨w', hsplit, hw⟩ := (wellFormed_or_digitless h).resolve_right hdigit
    obtain rfl := List.append_cancel_right hsplit
    exact hw

theorem exists_ascii_of_scan (h : syn.scan s = some r) :
    ∃ c t, s = c :: t ∧ c.toNat < 128 := by
  cases s with
  | nil => cases h
  | cons c t =>
      have hstart : starts.has c = true := by
        by_contra hnot
        rw [scan_cons_eq_none (Bool.eq_false_iff.2 hnot)] at h
        cases h
      exact ⟨c, t, rfl, starts.ascii c hstart⟩

/-- What is recognised as a number, in any language and anywhere, lies between two characters. It is
a literal of the kind that is given, unless it is begun like one with a radix and has no digit. -/
theorem recognise?_wellFormed_iff (h : Offset.recognise? syn.scan text offset = some (kind, stop)) :
    IsBoundary text offset ∧ IsBoundary text stop ∧
      (syn.WellFormed kind ((⟨offset, stop⟩ : ByteRange).slice text) ↔
        ¬ syn.Digitless (dropBytes offset text)) := by
  obtain ⟨front, w, rest, rfl, rfl, rfl, hscan⟩ :=
    Offset.exists_of_recognise? (consumes_scan syn) (fun _ _ => exists_ascii_of_scan) h
  have hslice : (⟨byteSize front, byteSize (front ++ w)⟩ : ByteRange).slice
      (front ++ (w ++ rest)) = w := by
    rw [ByteRange.slice, ByteRange.upTo, ← List.append_assoc, takeBytes_byteSize_append,
      dropBytes_byteSize_append]
  refine ⟨isBoundary_append front _, ?_, ?_⟩
  · rw [← List.append_assoc]
    exact isBoundary_append (front ++ w) rest
  · rw [hslice, dropBytes_byteSize_append]
    exact wellFormed_iff_not_digitless hscan

/-- A gap in front of the only digit. -/
theorem recognise?_wellFormed_iff_gap :
    let text := ['é', '0', 'b', '_', '1', 'u', '8', '.']
    Offset.recognise? Rust.numbers.scan text 2 = some (.numberBin, 8) ∧ IsBoundary text 8 ∧
      Rust.numbers.WellFormed .numberBin ['0', 'b', '_', '1', 'u', '8'] := by
  intro text
  have hscan : Offset.recognise? Rust.numbers.scan text 2 = some (.numberBin, 8) := by
    decide +kernel
  have hdigit : ¬ Rust.numbers.Digitless (text.drop 1) := by
    rintro ⟨letter, t, set, base, hs, hradix, hnone⟩
    cases hs
    have hbinary : Rust.numbers.radix? 'b' = some (.binDigits, .numberBin) := rfl
    rw [hbinary] at hradix
    cases hradix
    exact absurd (hnone '1' (by decide)) (by decide)
  obtain ⟨-, hstop, hiff⟩ := recognise?_wellFormed_iff hscan
  exact ⟨hscan, hstop, hiff.2 hdigit⟩

/-- A zero and a letter are taken for a literal without a digit. -/
theorem recognise?_digitless :
    Offset.recognise? ({} : NumberSyntax).scan ['0', 'x'] 0 = some (.numberHex, 2) ∧
      ¬ ({} : NumberSyntax).WellFormed .numberHex ['0', 'x'] := by
  have hnone : ({} : NumberSyntax).Digitless ['0', 'x'] :=
    ⟨'x', [], .hexDigits, .numberHex, rfl, rfl, nofun⟩
  exact ⟨by decide, fun h => h.not_digitless (by decide) [] hnone⟩

/-! ## A point with no digit behind it

Such a point belongs to a number only if no letter is behind it. Exponents and suffixes begin with
letters, and so none of them is ever found behind such a point: the number ends in front of it, and
the point is left to be read as something else. -/

variable {ds exp suffix : List Char}

theorem Exponent.atWord_append (hexp : syn.Exponent exp) (hne : exp ≠ []) :
    atWord .identStart (exp ++ s) = true := by
  by_contra hnot
  exact hne (hexp.eq_nil_of_not_atWord hnot)

/-- What makes a float of another kind, or none, begins like a word. -/
theorem Suffix.atWord_append (hsyn : syn ∈ shared) (h : syn.Suffix .numberFloat suffix kind)
    (hne : suffix ≠ []) : atWord .identStart (suffix ++ s) = true := by
  have hwords : ∀ syn ∈ shared, ∀ word ∈ syn.imaginarySuffixes ++ syn.floatSuffixes,
      atWord .identStart word.toList = true := by decide
  have happend : atWord .identStart suffix = true := by
    cases h with
    | none => exact absurd rfl hne
    | imaginary _ hmem => exact hwords syn hsyn _ (List.mem_append_left _ hmem)
    | float _ hmem => exact hwords syn hsyn _ (List.mem_append_right _ hmem)
    | integer hbase => exact absurd rfl hbase
  obtain ⟨c, t, rfl⟩ := List.exists_cons_of_ne_nil hne
  exact happend

theorem Suffix.kind_eq_of_nil (hsyn : syn.Clear) (h : syn.Suffix base [] kind) : kind = base := by
  have hscan := h.withSuffix_append hsyn (.nil _)
  rw [(@Suffix.none syn base).withSuffix_append hsyn (.nil _)] at hscan
  exact (congrArg Match.kind hscan).symm

theorem fraction_of_atWord (h : atWord .identStart s = true) :
    syn.fraction ('.' :: s) = ⟨.numberInteger, '.' :: s⟩ := by
  have hdigit : atDigit s = false := by
    cases s with
    | nil => rfl
    | cons c s =>
        have hstart : startsWord .identStart c = true := h
        exact AsciiSet.digits.has_eq_false hstart (by decide)
  rw [fraction, if_neg (by rw [hdigit]; decide), if_neg fun hfloat => hfloat.2 h]

/-- In front of a word the point is left, and nothing behind it is looked at. -/
theorem Digits.scan_append_word (hsyn : syn.Clear) (hds : syn.Digits ds)
    (h : atWord .identStart s = true) :
    syn.scan (ds ++ '.' :: s) = some ⟨.numberInteger, '.' :: s⟩ := by
  have hstop : Stops (syn.isDigitOrGap .digits) ('.' :: s) :=
    .cons (isDigitOrGap_eq_false rfl (by decide)) s
  have hend := ending_append hsyn .none (@Suffix.none syn .numberInteger)
    (.cons (by decide) s : Stops (continuesWord .identContinue) ('.' :: s))
  cases hds with
  | @run d ds hd hds =>
      rw [List.cons_append, scan_digits_append hd (stops_radixMarks_append hds (.cons rfl s)),
        scanDecimal, behindDigits_append hds hstop, fraction_of_atWord h]
      exact congrArg some hend

/-- A point with no digit behind it is taken where that ends the literal. In front of an exponent or
a suffix, which begin like words, it is not, and then the literal is the digits alone. -/
theorem recognise?_emptyFraction_iff (hsyn : syn ∈ shared) (hds : syn.Digits ds)
    (hexp : syn.Exponent exp) (hsuffix : syn.Suffix .numberFloat suffix kind)
    (hrest : Stops (continuesWord .identContinue) rest) (hpoint : rest.head? ≠ some '.')
    (front : List Char) :
    let answer := Offset.recognise? syn.scan
      (front ++ (ds ++ '.' :: (exp ++ (suffix ++ rest)))) (byteSize front)
    (answer = some (kind, byteSize (front ++ (ds ++ '.' :: (exp ++ suffix)))) ↔
        exp = [] ∧ suffix = []) ∧
      (¬ (exp = [] ∧ suffix = []) → answer = some (.numberInteger, byteSize (front ++ ds))) := by
  intro answer
  have hclear := clear_of_shared hsyn
  by_cases hnone : exp = [] ∧ suffix = []
  · obtain ⟨rfl, rfl⟩ := hnone
    have hscan := (Literal.trailingPoint hds).scan_append hclear hrest fun _ => hpoint
    have hanswer := Offset.recognise?_append front hscan
    rw [List.append_assoc] at hanswer
    rw [hsuffix.kind_eq_of_nil hclear]
    exact ⟨iff_of_true hanswer ⟨rfl, rfl⟩, fun hsome => absurd ⟨rfl, rfl⟩ hsome⟩
  · have hword : atWord .identStart (exp ++ (suffix ++ rest)) = true := by
      by_cases hnil : exp = []
      · rw [hnil, List.nil_append]
        exact hsuffix.atWord_append hsyn fun hsuffixNil => hnone ⟨hnil, hsuffixNil⟩
      · exact hexp.atWord_append hnil
    have hanswer : answer = some (.numberInteger, byteSize (front ++ ds)) :=
      Offset.recognise?_append front (hds.scan_append_word hclear hword)
    refine ⟨iff_of_false (fun hwhole => ?_) hnone, fun _ => hanswer⟩
    -- The answer ends in front of the point.
    rw [hanswer] at hwhole
    have hsize := congrArg Prod.snd (Option.some.inj hwhole)
    simp only [byteSize_append, byteSize_cons] at hsize
    have := Char.utf8Size_pos '.'
    omega

/-- An exponent and a suffix are both refused, and the point with them. -/
theorem recognise?_emptyFraction_imaginary :
    Offset.recognise? Go.numbers.scan "é1_0.e-3i;".toList 2 = some (.numberInteger, 5) ∧
      Offset.recognise? Go.numbers.scan "é1_0.;".toList 2 = some (.numberFloat, 6) := by
  have hds : Go.numbers.Digits ['1', '_', '0'] := .run (by decide) (by decide)
  have hexp : Go.numbers.Exponent ['e', '-', '3'] :=
    @Exponent.digits _ 'e' ['-'] ['3'] (.inl rfl) (by decide) (.run (by decide) (by decide))
  have hsuffix : Go.numbers.Suffix .numberFloat ['i'] .number :=
    @Suffix.imaginary Go.numbers _ "i" (.inr rfl) (by decide)
  have hshared : Go.numbers ∈ shared := by simp [shared]
  have hrest : Stops (continuesWord .identContinue) [';'] := .cons (by decide) []
  exact ⟨(recognise?_emptyFraction_iff hshared hds hexp hsuffix hrest (by decide) ['é']).2 nofun,
    (recognise?_emptyFraction_iff hshared hds .none .none hrest (by decide) ['é']).1.2 ⟨rfl, rfl⟩⟩

/-- Digits, a point and an exponent are not one literal. -/
theorem recognise?_pointed_exponent :
    Python.numbers.Digits ['1'] ∧ Python.numbers.Exponent ['e', '5'] ∧
      Offset.recognise? Python.numbers.scan ['1', '.', 'e', '5'] 0 = some (.numberInteger, 1) := by
  have hexp : Python.numbers.Exponent ['e', '5'] :=
    @Exponent.digits _ 'e' [] ['5'] (.inl rfl) (by decide) (.run (by decide) (by decide))
  exact ⟨.run (by decide) (by decide), hexp, by decide⟩

end NumberSyntax

end Highlight
