import Highlight.Number
import Highlight.Proofs.Dispatch

/-!
# Number literals are taken whole

A number is digits, a fraction, an exponent and a suffix, and each of them is a run that the next
one stops. What would spoil it is a part that begins like more of the part in front, or a suffix
that the scan takes for something else. Digits are stopped by anything that is no digit and no gap,
and a fraction and an exponent begin with such a character. For suffixes it is a matter of the
language: `Clear` says what has to be true of its lists, and a look at each list shows that it is.
-/

namespace Highlight.NumberSyntax

variable {syn : NumberSyntax} {set : AsciiSet} {kind base : Kind}
  {ds frac exp suffix s rest w : List Char}

/-- A run of decimal digits, the first of which is no gap. -/
inductive Digits (syn : NumberSyntax) : List Char → Prop where
  | run {d : Char} {ds : List Char} (hd : AsciiSet.digits.has d = true)
      (hds : ∀ c ∈ ds, syn.isDigitOrGap .digits c = true) : Digits syn (d :: ds)

inductive Fraction (syn : NumberSyntax) : List Char → Prop where
  | none : Fraction syn []
  | digits {ds : List Char} (hds : syn.Digits ds) : Fraction syn ('.' :: ds)

inductive Exponent (syn : NumberSyntax) : List Char → Prop where
  | none : Exponent syn []
  | digits {e : Char} {sign ds : List Char} (he : e = 'e' ∨ e = 'E')
      (hsign : sign ∈ [[], ['+'], ['-']]) (hds : syn.Digits ds) :
      Exponent syn (e :: (sign ++ ds))

/-- A suffix, given the kind of the literal in front of it and the kind it makes of that. Imaginary
and float suffixes belong to decimal literals, integer suffixes to any literal but a float. -/
inductive Suffix (syn : NumberSyntax) : Kind → List Char → Kind → Prop where
  | none {base : Kind} : Suffix syn base [] base
  | imaginary {base : Kind} {suffix : String}
      (hbase : base = .numberInteger ∨ base = .numberFloat)
      (hmem : suffix ∈ syn.imaginarySuffixes) : Suffix syn base suffix.toList .number
  | float {base : Kind} {suffix : String} (hbase : base = .numberInteger ∨ base = .numberFloat)
      (hmem : suffix ∈ syn.floatSuffixes) : Suffix syn base suffix.toList .numberFloat
  | integer {base : Kind} {suffix : String} (hbase : base ≠ .numberFloat)
      (hmem : suffix ∈ syn.integerSuffixes) : Suffix syn base suffix.toList base

/-- The kind of a decimal literal, by its fraction and its exponent. -/
def decimalKind (frac exp : List Char) : Kind :=
  if frac = [] ∧ exp = [] then .numberInteger else .numberFloat

theorem decimalKind_eq (frac exp : List Char) :
    decimalKind frac exp =
      if exp = [] then (if frac = [] then .numberInteger else .numberFloat) else .numberFloat := by
  by_cases hfrac : frac = [] <;> by_cases hexp : exp = [] <;> simp [decimalKind, hfrac, hexp]

inductive Literal (syn : NumberSyntax) : Kind → List Char → Prop where
  | decimal {kind : Kind} {ds frac exp suffix : List Char} (hds : syn.Digits ds)
      (hfrac : syn.Fraction frac) (hexp : syn.Exponent exp)
      (hsuffix : syn.Suffix (decimalKind frac exp) suffix kind) :
      Literal syn kind (ds ++ (frac ++ (exp ++ suffix)))
  | leadingPoint {kind : Kind} {ds exp suffix : List Char} (hpoint : syn.leadingDot = true)
      (hds : syn.Digits ds) (hexp : syn.Exponent exp)
      (hsuffix : syn.Suffix .numberFloat suffix kind) :
      Literal syn kind ('.' :: (ds ++ (exp ++ suffix)))
  | trailingPoint {ds : List Char} (hds : syn.Digits ds) : Literal syn .numberFloat (ds ++ ['.'])
  | radix {kind base : Kind} {set : AsciiSet} {letter : Char} {ds suffix : List Char}
      (hradix : syn.radix? letter = some (set, base))
      (hds : ∀ c ∈ ds, syn.isDigitOrGap set c = true) (hone : ∃ c ∈ ds, set.has c = true)
      (hsuffix : syn.Suffix base suffix kind) :
      Literal syn kind ('0' :: letter :: (ds ++ suffix))

theorem isDigitOrGap_of_has {c : Char} (h : set.has c = true) : syn.isDigitOrGap set c = true := by
  rw [isDigitOrGap, h, Bool.true_or]

theorem isDigitOrGap_eq_false {c : Char} (h : set.has c = false) (hgap : c ≠ '_') :
    syn.isDigitOrGap set c = false := by
  rw [isDigitOrGap, h, beq_eq_false_iff_ne.2 hgap, Bool.and_false, Bool.or_false]

theorem Digits.forall_mem (h : syn.Digits ds) : ∀ c ∈ ds, syn.isDigitOrGap .digits c = true := by
  cases h with
  | run hd hds => exact List.forall_mem_cons.2 ⟨isDigitOrGap_of_has hd, hds⟩

theorem Digits.atDigit_append (h : syn.Digits ds) (s : List Char) : atDigit (ds ++ s) = true := by
  cases h with
  | run hd hds => exact hd

theorem behindDigits_append (hds : ∀ c ∈ ds, syn.isDigitOrGap set c = true)
    (hs : Stops (syn.isDigitOrGap set) s) : syn.behindDigits set (ds ++ s) = s :=
  hs.dropWhile_append hds

theorem behindSign_append {sign : List Char} (hsign : sign ∈ [[], ['+'], ['-']])
    (hds : syn.Digits ds) : behindSign (sign ++ (ds ++ s)) = ds ++ s := by
  simp only [List.mem_cons, List.not_mem_nil, or_false] at hsign
  cases hds with
  | @run d ds hd hds =>
      rcases hsign with rfl | rfl | rfl
      · have hne : ¬ (d = '+' ∨ d = '-') := by
          rintro (rfl | rfl) <;> revert hd <;> decide
        rw [List.nil_append, List.cons_append, behindSign, if_neg hne]
      · rfl
      · rfl

/-- What begins an exponent. -/
def exponentMarks : AsciiSet := .chars "eE"

theorem behindExponent?_eq_none (hs : Stops exponentMarks.has s) :
    syn.behindExponent? s = none := by
  cases s with
  | nil => rfl
  | cons c s =>
      rw [behindExponent?, if_neg]
      rintro ⟨rfl | rfl, -⟩
      · exact absurd hs.head (by decide)
      · exact absurd hs.head (by decide)

theorem withExponent_append (hexp : syn.Exponent exp) (hs : Stops (syn.isDigitOrGap .digits) s)
    (hmark : Stops exponentMarks.has s) :
    syn.withExponent ⟨kind, exp ++ s⟩ = ⟨if exp = [] then kind else .numberFloat, s⟩ := by
  cases hexp with
  | none =>
      rw [withExponent]
      simp only [List.nil_append, behindExponent?_eq_none hmark, if_true]
  | @digits e sign ds he hsign hds =>
      have hexponent : syn.behindExponent? (e :: (sign ++ ds) ++ s) = some s := by
        rw [List.cons_append, List.append_assoc, behindExponent?, behindSign_append hsign hds,
          if_pos ⟨he, hds.atDigit_append s⟩, behindDigits_append hds.forall_mem hs]
      rw [withExponent]
      simp only [hexponent, List.cons_ne_nil, if_false]

/-! ## Suffixes

A suffix is read as a word and looked up in the lists of the language. The part in front of it must
stop where it begins, so its first character is one that this part could not go on with, and behind
hexadecimal digits there are more of those to be kept from. -/

/-- What would be taken, at the front of a suffix, for more of the digits in front of it, for the
mark of an exponent, or for the letter of a radix. -/
def blurring : AsciiSet := AsciiSet.digits.union (.chars "_eExXoObB")

/-- Suffixes that are told apart from what is in front of them, and from each other. -/
structure Clear (syn : NumberSyntax) : Prop where
  word : ∀ suffix ∈ syn.integerSuffixes ++ syn.floatSuffixes ++ syn.imaginarySuffixes,
    suffix.toList.all (continuesWord .identContinue) = true
  first : ∀ suffix ∈ syn.integerSuffixes ++ syn.floatSuffixes ++ syn.imaginarySuffixes,
    suffix.toList.head?.any (fun c => !blurring.has c) = true
  radix : ∀ suffix ∈ syn.integerSuffixes,
    suffix.toList.head?.any (fun c => !AsciiSet.hexDigits.has c) = true
  float : ∀ suffix ∈ syn.floatSuffixes, suffix ∉ syn.imaginarySuffixes
  integer : ∀ suffix ∈ syn.integerSuffixes,
    suffix ∉ syn.imaginarySuffixes ∧ suffix ∉ syn.floatSuffixes

theorem Suffix.eq_nil_or_mem (h : syn.Suffix base suffix kind) :
    suffix = [] ∨ ∃ word ∈ syn.integerSuffixes ++ syn.floatSuffixes ++ syn.imaginarySuffixes,
      suffix = word.toList := by
  cases h with
  | none => exact .inl rfl
  | imaginary hbase hmem => exact .inr ⟨_, List.mem_append_right _ hmem, rfl⟩
  | float hbase hmem =>
      exact .inr ⟨_, List.mem_append_left _ (List.mem_append_right _ hmem), rfl⟩
  | integer hbase hmem =>
      exact .inr ⟨_, List.mem_append_left _ (List.mem_append_left _ hmem), rfl⟩

theorem Suffix.forall_mem (hsyn : syn.Clear) (h : syn.Suffix base suffix kind) :
    ∀ c ∈ suffix, continuesWord .identContinue c = true := by
  rcases h.eq_nil_or_mem with rfl | ⟨word, hmem, rfl⟩
  · exact fun _ hc => absurd hc List.not_mem_nil
  · exact List.all_eq_true.1 (hsyn.word word hmem)

theorem Suffix.withSuffix_append (hsyn : syn.Clear) (h : syn.Suffix base suffix kind)
    (hrest : Stops (continuesWord .identContinue) rest) :
    syn.withSuffix base (suffix ++ rest) = ⟨kind, rest⟩ := by
  have hword := h.forall_mem hsyn
  have hof : wordOf .identContinue (suffix ++ rest) = suffix := hrest.takeWhile_append hword
  have hbehind : behindWord .identContinue (suffix ++ rest) = rest := hrest.dropWhile_append hword
  have hne {word : String}
      (hmem : word ∈ syn.integerSuffixes ++ syn.floatSuffixes ++ syn.imaginarySuffixes) :
      word ≠ "" := by
    rintro rfl
    exact absurd (hsyn.first "" hmem) (by decide)
  unfold withSuffix
  rw [hof, hbehind]
  cases h with
  | none => rfl
  | @imaginary word hbase hmem =>
      have hword := hne (List.mem_append_right _ hmem)
      simp only [String.ofList_toList, if_neg hword, if_pos (And.intro hbase hmem)]
  | @float word hbase hmem =>
      have hword := hne (List.mem_append_left _ (List.mem_append_right _ hmem))
      have himaginary := hsyn.float word hmem
      simp only [String.ofList_toList, if_neg hword, himaginary, and_false, if_false,
        if_pos (And.intro hbase hmem)]
  | @integer word hbase hmem =>
      have hword := hne (List.mem_append_left _ (List.mem_append_left _ hmem))
      obtain ⟨himaginary, hfloat⟩ := hsyn.integer word hmem
      simp only [String.ofList_toList, if_neg hword, himaginary, hfloat, and_false, if_false,
        if_pos (And.intro hbase hmem)]

theorem stops_blurring (hrest : Stops (continuesWord .identContinue) rest) :
    Stops blurring.has rest := by
  have hword : ∀ c ∈ blurring.members, continuesWord .identContinue c = true := by decide
  exact hrest.mono fun c hc => hword c (AsciiSet.mem_members.2 hc)

theorem Suffix.stops_append (hsyn : syn.Clear) (h : syn.Suffix base suffix kind)
    (hrest : Stops (continuesWord .identContinue) rest) : Stops blurring.has (suffix ++ rest) := by
  refine .append ?_ (stops_blurring hrest)
  intro c hc
  rcases h.eq_nil_or_mem with rfl | ⟨word, hmem, rfl⟩
  · cases hc
  · have hfirst := hsyn.first word hmem
    rw [Option.mem_def.1 hc] at hfirst
    simpa using hfirst

/-- Behind the digits of a radix the suffix is one that keeps the kind, and those begin with no
digit of any radix. -/
theorem Suffix.stops_append_hexDigits (hsyn : syn.Clear) (h : syn.Suffix base suffix kind)
    (hbase : base ≠ .numberInteger ∧ base ≠ .numberFloat)
    (hrest : Stops (continuesWord .identContinue) rest) :
    Stops (fun c => AsciiSet.hexDigits.has c || c == '_') (suffix ++ rest) := by
  have hword : ∀ c ∈ AsciiSet.hexDigits.members, continuesWord .identContinue c = true := by decide
  have hgap : Stops (fun c => AsciiSet.hexDigits.has c || c == '_') rest := by
    refine hrest.mono fun c hc => ?_
    rcases Bool.or_eq_true_iff.1 hc with hc | hc
    · exact hword c (AsciiSet.mem_members.2 hc)
    · rw [eq_of_beq hc]
      decide
  refine .append (fun c hc => ?_) hgap
  have hblur := h.stops_append hsyn hrest c (by rw [List.head?_append, Option.mem_def.1 hc]; rfl)
  have hne : c ≠ '_' := by
    rintro rfl
    exact absurd hblur (by decide)
  rw [beq_eq_false_iff_ne.2 hne, Bool.or_false]
  cases h with
  | none => cases hc
  | imaginary hdecimal => exact (hdecimal.elim hbase.1 hbase.2).elim
  | float hdecimal => exact (hdecimal.elim hbase.1 hbase.2).elim
  | integer _ hmem =>
      have hfirst := hsyn.radix _ hmem
      rw [Option.mem_def.1 hc] at hfirst
      simpa using hfirst

theorem stops_digits (h : Stops blurring.has s) : Stops (syn.isDigitOrGap .digits) s := by
  refine h.mono fun c hc => ?_
  rw [isDigitOrGap, Bool.or_eq_true, Bool.and_eq_true, beq_iff_eq] at hc
  rcases hc with hc | ⟨-, rfl⟩
  · show (AsciiSet.digits.has c || _) = true
    rw [hc, Bool.true_or]
  · decide

theorem stops_exponentMarks (h : Stops blurring.has s) : Stops exponentMarks.has s := by
  have hmem : ∀ c ∈ exponentMarks.members, blurring.has c = true := by decide
  exact h.mono fun c hc => hmem c (AsciiSet.mem_members.2 hc)

theorem ending_append (hsyn : syn.Clear) (hexp : syn.Exponent exp)
    (hsuffix : syn.Suffix (if exp = [] then base else .numberFloat) suffix kind)
    (hrest : Stops (continuesWord .identContinue) rest) :
    syn.ending ⟨base, exp ++ (suffix ++ rest)⟩ = ⟨kind, rest⟩ := by
  have hstop := hsuffix.stops_append hsyn hrest
  rw [ending, withExponent_append hexp (stops_digits hstop) (stops_exponentMarks hstop)]
  exact hsuffix.withSuffix_append hsyn hrest

theorem Fraction.head?_eq (h : syn.Fraction frac) : ∀ c ∈ frac.head?, c = '.' := by
  cases h with
  | none => exact fun _ hc => absurd hc (by simp)
  | digits => exact fun c hc => (Option.some.inj hc).symm

theorem Exponent.head?_has (h : syn.Exponent exp) :
    ∀ c ∈ exp.head?, exponentMarks.has c = true := by
  cases h with
  | none => exact fun _ hc => absurd hc (by simp)
  | digits he hsign hds =>
      intro c hc
      cases hc
      rcases he with rfl | rfl <;> decide

theorem Exponent.head?_append_ne_point (h : syn.Exponent exp)
    (hs : exp = [] → s.head? ≠ some '.') : (exp ++ s).head? ≠ some '.' := by
  cases h with
  | none => exact hs rfl
  | digits he hsign hds => rcases he with rfl | rfl <;> exact fun hc => absurd hc (by simp)

theorem Suffix.head?_append_ne_point (hsyn : syn.Clear) (h : syn.Suffix base suffix kind)
    (hs : suffix = [] → s.head? ≠ some '.') : (suffix ++ s).head? ≠ some '.' := by
  cases suffix with
  | nil => exact hs rfl
  | cons c suffix =>
      intro hc
      obtain rfl := Option.some.inj hc
      exact absurd (h.forall_mem hsyn '.' List.mem_cons_self) (by decide)

/-- The digits of a decimal literal stop at whatever part comes next. -/
theorem stops_digits_append (hfrac : syn.Fraction frac) (hexp : syn.Exponent exp)
    (hs : Stops blurring.has s) : Stops (syn.isDigitOrGap .digits) (frac ++ (exp ++ s)) := by
  refine .append ?_ (.append ?_ (stops_digits hs))
  · intro c hc
    rw [hfrac.head?_eq c hc]
    exact isDigitOrGap_eq_false rfl (by decide)
  · intro c hc
    have hmark : ∀ c ∈ exponentMarks.members, AsciiSet.digits.has c = false ∧ c ≠ '_' := by
      decide
    obtain ⟨hdigit, hgap⟩ := hmark c (AsciiSet.mem_members.2 (hexp.head?_has c hc))
    exact isDigitOrGap_eq_false hdigit hgap

theorem fraction_append (hfrac : syn.Fraction frac) (hs : Stops (syn.isDigitOrGap .digits) s)
    (hpoint : frac = [] → s.head? ≠ some '.') :
    syn.fraction (frac ++ s) = ⟨if frac = [] then .numberInteger else .numberFloat, s⟩ := by
  cases hfrac with
  | none =>
      rw [List.nil_append, fraction, if_pos rfl]
      rintro t rfl
      exact hpoint rfl rfl
  | @digits ds hds =>
      rw [List.cons_append, fraction, if_pos (hds.atDigit_append s),
        behindDigits_append hds.forall_mem hs, if_neg (List.cons_ne_nil _ _)]

theorem scanDecimal_append (hsyn : syn.Clear) (hds : ∀ c ∈ ds, syn.isDigitOrGap .digits c = true)
    (hfrac : syn.Fraction frac) (hexp : syn.Exponent exp)
    (hsuffix : syn.Suffix (decimalKind frac exp) suffix kind)
    (hrest : Stops (continuesWord .identContinue) rest)
    (hpoint : frac = [] → (exp ++ (suffix ++ rest)).head? ≠ some '.') :
    syn.scanDecimal (ds ++ (frac ++ (exp ++ (suffix ++ rest)))) = ⟨kind, rest⟩ := by
  have hstop := hsuffix.stops_append hsyn hrest
  have hexpStop : Stops (syn.isDigitOrGap .digits) (exp ++ (suffix ++ rest)) :=
    @stops_digits_append syn [] exp _ .none hexp hstop
  rw [scanDecimal, behindDigits_append hds (stops_digits_append hfrac hexp hstop),
    fraction_append hfrac hexpStop hpoint,
    ending_append hsyn hexp (decimalKind_eq frac exp ▸ hsuffix) hrest]

theorem scanDecimal_trailingPoint (hsyn : syn.Clear)
    (hds : ∀ c ∈ ds, syn.isDigitOrGap .digits c = true)
    (hrest : Stops (continuesWord .identContinue) rest) (hpoint : rest.head? ≠ some '.') :
    syn.scanDecimal (ds ++ '.' :: rest) = ⟨.numberFloat, rest⟩ := by
  have hdigit : ¬ atDigit rest = true := by
    cases rest with
    | nil => decide
    | cons c s =>
        have hword : ∀ c ∈ AsciiSet.digits.members, continuesWord .identContinue c = true := by
          decide
        intro hd
        exact absurd (hword c (AsciiSet.mem_members.2 hd)) (by rw [hrest.head]; decide)
  have hstart : ¬ atWord .identStart rest = true := by
    cases rest with
    | nil => decide
    | cons c s =>
        intro hc
        exact absurd (continues_of_identStart hc) (by rw [hrest.head]; decide)
  have hstop : Stops (syn.isDigitOrGap .digits) ('.' :: rest) :=
    .cons (isDigitOrGap_eq_false rfl (by decide)) rest
  have hend := ending_append hsyn .none (@Suffix.none syn .numberFloat) hrest
  rw [scanDecimal, behindDigits_append hds hstop, fraction, if_neg hdigit, if_pos ⟨hpoint, hstart⟩]
  exact hend

/-- What stands for a radix behind a zero. -/
def radixMarks : AsciiSet := .chars "xXoObB"

theorem scanRadix_eq_none (hs : Stops radixMarks.has s) : syn.scanRadix s = none := by
  cases s with
  | nil => rfl
  | cons c s =>
      have hradix : syn.radix? c = none := by
        rw [radix?, if_neg, if_neg, if_neg]
        all_goals
          rintro ⟨-, rfl | rfl⟩
          · exact absurd hs.head (by decide)
          · exact absurd hs.head (by decide)
      rw [scanRadix, hradix]

/-- Behind its first digit a decimal literal does not go on with the mark of a radix. -/
theorem stops_radixMarks_append (hds : ∀ c ∈ ds, syn.isDigitOrGap .digits c = true)
    (hs : Stops radixMarks.has s) : Stops radixMarks.has (ds ++ s) := by
  have hmark : ∀ c ∈ radixMarks.members, AsciiSet.digits.has c = false ∧ c ≠ '_' := by decide
  refine .append (fun c hc => ?_) hs
  refine radixMarks.has_eq_false (hds c (List.mem_of_mem_head? hc)) fun d hd => ?_
  exact isDigitOrGap_eq_false (hmark d hd).1 (hmark d hd).2

theorem stops_radixMarks (hfrac : syn.Fraction frac) (hexp : syn.Exponent exp)
    (hs : Stops blurring.has s) : Stops radixMarks.has (frac ++ (exp ++ s)) := by
  refine .append (fun c hc => ?_) (.append (fun c hc => ?_) ?_)
  · rw [hfrac.head?_eq c hc]
    rfl
  · exact radixMarks.has_eq_false (hexp.head?_has c hc) (by decide)
  · have hblur : ∀ c ∈ radixMarks.members, blurring.has c = true := by decide
    exact hs.mono fun c hc => hblur c (AsciiSet.mem_members.2 hc)

theorem scan_digits_append {d : Char} (hd : AsciiSet.digits.has d = true)
    (hs : Stops radixMarks.has s) : syn.scan (d :: s) = some (syn.scanDecimal s) := by
  have hpoint : d ≠ '.' := ne_of_class hd rfl
  rw [scan, if_neg hpoint, if_pos hd, scanRadix_eq_none hs]
  split <;> rfl

theorem scan_radix_append (hsyn : syn.Clear) {letter : Char}
    (hradix : syn.radix? letter = some (set, base))
    (hds : ∀ c ∈ ds, syn.isDigitOrGap set c = true) (hsuffix : syn.Suffix base suffix kind)
    (hrest : Stops (continuesWord .identContinue) rest) :
    syn.scan ('0' :: letter :: (ds ++ (suffix ++ rest))) = some ⟨kind, rest⟩ := by
  have hbase : (∀ c, set.has c = true → AsciiSet.hexDigits.has c = true) ∧
      base ≠ .numberInteger ∧ base ≠ .numberFloat := by
    have hoct : ∀ c ∈ AsciiSet.octDigits.members, AsciiSet.hexDigits.has c = true := by decide
    have hbin : ∀ c ∈ AsciiSet.binDigits.members, AsciiSet.hexDigits.has c = true := by decide
    simp only [radix?] at hradix
    repeat' split at hradix
    · cases hradix
      exact ⟨fun c hc => hc, by decide, by decide⟩
    · cases hradix
      exact ⟨fun c hc => hoct c (AsciiSet.mem_members.2 hc), by decide, by decide⟩
    · cases hradix
      exact ⟨fun c hc => hbin c (AsciiSet.mem_members.2 hc), by decide, by decide⟩
    · cases hradix
  have hstop : Stops (syn.isDigitOrGap set) (suffix ++ rest) := by
    refine (hsuffix.stops_append_hexDigits hsyn hbase.2 hrest).mono fun c hc => ?_
    rw [isDigitOrGap, Bool.or_eq_true, Bool.and_eq_true, beq_iff_eq] at hc
    rw [Bool.or_eq_true, beq_iff_eq]
    exact hc.imp (hbase.1 c) And.right
  have hscan : syn.scanRadix (letter :: (ds ++ (suffix ++ rest))) = some ⟨kind, rest⟩ := by
    rw [scanRadix, hradix]
    dsimp only
    rw [behindDigits_append hds hstop, hsuffix.withSuffix_append hsyn hrest]
  rw [scan, if_neg (by decide), if_pos (by decide), if_pos rfl, hscan]
  rfl

/-- A literal with anything behind it that is no part of a word. A point behind it is looked at only
where the literal is digits alone, or digits and a point. -/
theorem Literal.scan_append (hsyn : syn.Clear) (h : syn.Literal kind w)
    (hrest : Stops (continuesWord .identContinue) rest)
    (hpoint : syn.behindDigits .digits w ∈ [[], ['.']] → rest.head? ≠ some '.') :
    syn.scan (w ++ rest) = some ⟨kind, rest⟩ := by
  cases h with
  | @decimal kind ds frac exp suffix hdigits hfrac hexp hsuffix =>
      have hbehind : frac = [] → (exp ++ (suffix ++ rest)).head? ≠ some '.' := by
        rintro rfl
        refine hexp.head?_append_ne_point fun hnone => ?_
        refine hsuffix.head?_append_ne_point hsyn fun hnil => hpoint ?_
        rw [hnone, hnil, List.nil_append, List.nil_append,
          behindDigits_append hdigits.forall_mem (.nil _)]
        exact List.mem_cons_self
      cases hdigits with
      | @run d ds hd hds =>
          have hmark := stops_radixMarks_append hds
            (stops_radixMarks hfrac hexp (hsuffix.stops_append hsyn hrest))
          have hscan := scanDecimal_append hsyn hds hfrac hexp hsuffix hrest hbehind
          simp only [List.append_assoc, List.cons_append]
          rw [scan_digits_append hd hmark, hscan]
  | @leadingPoint kind ds exp suffix hlead hds hexp hsuffix =>
      have hstop : Stops (syn.isDigitOrGap .digits) (exp ++ (suffix ++ rest)) :=
        @stops_digits_append syn [] exp _ .none hexp (hsuffix.stops_append hsyn hrest)
      simp only [List.append_assoc, List.cons_append]
      rw [scan, if_pos rfl, if_pos ⟨hlead, hds.atDigit_append _⟩,
        behindDigits_append hds.forall_mem hstop]
      rw [ending_append hsyn hexp (by simpa using hsuffix) hrest]
  | @trailingPoint ds hdigits =>
      have hbehind : rest.head? ≠ some '.' := by
        have hstop : Stops (syn.isDigitOrGap .digits) ['.'] :=
          .cons (isDigitOrGap_eq_false rfl (by decide)) []
        refine hpoint ?_
        rw [behindDigits_append hdigits.forall_mem hstop]
        exact List.mem_cons_of_mem _ List.mem_cons_self
      cases hdigits with
      | @run d ds hd hds =>
          have hmark : Stops radixMarks.has (ds ++ '.' :: rest) :=
            stops_radixMarks_append hds (.cons rfl rest)
          have hscan := scanDecimal_trailingPoint hsyn hds hrest hbehind
          simp only [List.append_assoc, List.cons_append, List.nil_append]
          rw [scan_digits_append hd hmark, hscan]
  | radix hradix hds hone hsuffix =>
      simp only [List.append_assoc, List.cons_append]
      exact scan_radix_append hsyn hradix hds hsuffix hrest

/-- What a literal begins with. -/
def starts : AsciiSet := AsciiSet.digits.union (.chars ".")

theorem Literal.head (h : syn.Literal kind w) : ∃ c t, w = c :: t ∧ starts.has c = true := by
  have hdigit : ∀ c ∈ AsciiSet.digits.members, starts.has c = true := by decide
  cases h with
  | decimal hds =>
      cases hds with
      | run hd => exact ⟨_, _, rfl, hdigit _ (AsciiSet.mem_members.2 hd)⟩
  | leadingPoint => exact ⟨_, _, rfl, by decide⟩
  | trailingPoint hds =>
      cases hds with
      | run hd => exact ⟨_, _, rfl, hdigit _ (AsciiSet.mem_members.2 hd)⟩
  | radix => exact ⟨_, _, rfl, by decide⟩

theorem Literal.visible (h : syn.Literal kind w) : Visible w := by
  have hspace : ∀ c ∈ starts.members, AsciiSet.whitespace.has c = false := by decide
  obtain ⟨c, s, rfl, hc⟩ := h.head
  exact ⟨c, s, rfl, hspace c (AsciiSet.mem_members.2 hc)⟩

theorem scan_cons_eq_none {c : Char} (h : starts.has c = false) : syn.scan (c :: s) = none := by
  have hdigit : AsciiSet.digits.has c = false := (Bool.or_eq_false_iff.1 h).1
  have hpoint : c ≠ '.' := by
    rintro rfl
    exact absurd h (by decide)
  rw [scan, if_neg hpoint, if_neg (by rw [hdigit]; decide)]

theorem scan_append_eq_none (hne : w ≠ []) (h : syn.scan w = none) (hrest : Gap rest) :
    syn.scan (w ++ rest) = none := by
  obtain ⟨c, t, rfl⟩ := List.exists_cons_of_ne_nil hne
  -- A point begins a number only in front of a digit, and a gap begins with none.
  have hdigit : atDigit (t ++ rest) = atDigit t := by
    cases t with
    | cons d t => rfl
    | nil =>
        cases rest with
        | nil => rfl
        | cons d rest => exact AsciiSet.digits.has_eq_false (hrest d rfl) (by decide)
  rw [scan] at h
  rw [List.cons_append, scan, hdigit]
  by_cases hc : c = '.'
  · rw [if_pos hc] at h ⊢
    by_cases hlead : syn.leadingDot = true ∧ atDigit t = true
    · rw [if_pos hlead] at h
      cases h
    · rw [if_neg hlead]
  · rw [if_neg hc] at h ⊢
    by_cases hd : AsciiSet.digits.has c = true
    · rw [if_pos hd] at h
      split at h
      · rw [Option.or_some] at h
        cases h
      · cases h
    · rw [if_neg hd]

end Highlight.NumberSyntax
