import Highlight.Interpolation

/-!
# Runs of literal text

A scan of literal text jumps from one character that may end it to the next, and decides at each of
them whether to go on. Seen from the text it is a sequence of units: plain characters, escapes,
doubled braces, and delimiters that are none because of what is behind them. `Literal` is the
grammar of such a sequence, and since a unit may turn on what follows the run, it is given the text
behind it. The scan passes over a run whatever the run consists of, so where the scan ends is only a
matter of what is behind: `Literal.text_append`.

What may be behind a run is the closing quotes or the opening of a field, and at either the scan
stops with the reason that the rest of the library goes by.
-/

namespace Highlight

namespace TemplateSyntax

variable {style : TemplateSyntax} {c : Char} {s : List Char}

theorem stops_escape (style : TemplateSyntax) : style.stops '\x5c' = true := by
  simp [stops]

theorem text_escape (style : TemplateSyntax) (s : List Char) :
    style.text ('\x5c' :: s) = style.text (s.drop 1) := by
  rw [text_cons_of_stops style.stops_escape]
  dsimp only [textScan]
  rw [if_neg (by simp), if_pos rfl]
  rfl

theorem opener_of_dollar (hd : style.dollar = true) : style.opener = '$' := by
  rw [opener, if_pos hd]

theorem opener_of_not_dollar (hd : style.dollar = false) : style.opener = '\x7b' := by
  rw [opener, if_neg (by rw [hd]; decide)]

theorem stops_opener (style : TemplateSyntax) : style.stops style.opener = true := by
  simp [stops]

/-- The quotes that open and close a string. -/
def quotes (style : TemplateSyntax) : List Char :=
  if style.triple then [style.quote, style.quote, style.quote] else [style.quote]

theorem length_quotes_pos (style : TemplateSyntax) : 0 < style.quotes.length := by
  rw [quotes]
  split <;> exact Nat.succ_pos _

/-- Whether strings are quoted by characters that mean nothing else in them, be it in their literal
text, in the code of a field or in a format specification. -/
def Quoted (style : TemplateSyntax) : Prop :=
  style.quote = '\'' ∨ style.quote = '\x22' ∨ style.quote = '\x60'

theorem Quoted.ne (h : style.Quoted) (c : Char) (hc : c ≠ '\'' ∧ c ≠ '\x22' ∧ c ≠ '\x60') :
    style.quote ≠ c := by
  rintro rfl
  rcases h with h | h | h
  · exact hc.1 h
  · exact hc.2.1 h
  · exact hc.2.2 h

theorem Quoted.has_whitespace (h : style.Quoted) :
    AsciiSet.whitespace.has style.quote = false := by
  rcases h with hq | hq | hq <;> rw [hq] <;> decide

theorem opener_ne (style : TemplateSyntax) (c : Char) (hc : c ≠ '$' ∧ c ≠ '\x7b') :
    style.opener ≠ c := by
  rw [opener]
  split
  · exact hc.1.symm
  · exact hc.2.symm

theorem Quoted.ne_opener (h : style.Quoted) : style.quote ≠ style.opener := by
  rw [opener]
  split
  · exact h.ne '$' (by decide)
  · exact h.ne '\x7b' (by decide)

theorem stops_quote (style : TemplateSyntax) : style.stops style.quote = true := by
  simp [stops]

theorem text_quote (h : style.Quoted) (s : List Char) :
    style.text (style.quote :: s) =
      if style.triple then
        match [style.quote, style.quote].isPrefixOf? s with
        | some behind => (.closed, behind)
        | none => style.text s
      else (.closed, s) := by
  have hline : ¬ (style.singleLine = true ∧ style.quote = '\n') :=
    fun hn => h.ne '\n' (by decide) hn.2
  rw [text_cons_of_stops style.stops_quote]
  dsimp only [textScan]
  rw [if_neg hline, if_neg (h.ne '\x5c' (by decide)), if_pos rfl]
  split
  · cases [style.quote, style.quote].isPrefixOf? s <;> rfl
  · rfl

theorem text_quotes (h : style.Quoted) (s : List Char) :
    style.text (style.quotes ++ s) = (.closed, s) := by
  rw [quotes]
  by_cases ht : style.triple = true
  · rw [if_pos ht, List.cons_append, text_quote h, if_pos ht, isPrefixOf?_append]
  · rw [if_neg ht, List.cons_append, text_quote h, if_neg ht]
    rfl

theorem opener?_cons_of_ne (h : c ≠ style.opener) (s : List Char) :
    style.opener? (c :: s) = none := by
  rw [opener?, if_pos h]

theorem opener?_quotes (h : style.Quoted) (s : List Char) :
    style.opener? (style.quotes ++ s) = none := by
  rw [quotes]
  split
  · exact opener?_cons_of_ne h.ne_opener _
  · exact opener?_cons_of_ne h.ne_opener _

/-- What opens a field. -/
def fieldOpener (style : TemplateSyntax) : List Char :=
  if style.dollar then ['$', '\x7b'] else ['\x7b']

/-- Whether code may stand in a field of literal text. Without the dollar sign it may not begin with
a brace, which would double the one in front of it. -/
def Fits (style : TemplateSyntax) (code : List Char) : Prop :=
  style.dollar = false → code.head? ≠ some '\x7b'

theorem text_opener (h : style.Quoted) (s : List Char) :
    style.text (style.opener :: s) =
      if style.dollar then
        if s.head? = some '\x7b' then (.field, style.opener :: s) else style.text s
      else if s.head? = some '\x7b' then style.text (s.drop 1)
      else (.field, style.opener :: s) := by
  have hline : ¬ (style.singleLine = true ∧ style.opener = '\n') :=
    fun hn => style.opener_ne '\n' (by decide) hn.2
  have hescape : style.opener ≠ '\x5c' := style.opener_ne '\x5c' (by decide)
  rw [text_cons_of_stops style.stops_opener]
  dsimp only [textScan]
  rw [if_neg hline, if_neg hescape, if_neg h.ne_opener.symm]
  split
  · split <;> rfl
  · split <;> rfl

theorem text_fieldOpener (h : style.Quoted) {code : List Char} (hcode : style.Fits code) :
    style.text (style.fieldOpener ++ code) = (.field, style.fieldOpener ++ code) := by
  rw [fieldOpener]
  by_cases hd : style.dollar = true
  · rw [if_pos hd, List.cons_append, ← opener_of_dollar hd, text_opener h, if_pos hd]
    rfl
  · have hf : style.dollar = false := Bool.not_eq_true _ ▸ hd
    rw [if_neg hd, List.cons_append, ← opener_of_not_dollar hf, text_opener h, if_neg hd,
      List.nil_append, if_neg (hcode hf)]

theorem opener?_fieldOpener {code : List Char} (hcode : style.Fits code) :
    style.opener? (style.fieldOpener ++ code) = some code := by
  rw [fieldOpener]
  by_cases hd : style.dollar = true
  · rw [if_pos hd, List.cons_append, opener?, opener_of_dollar hd, if_neg (· rfl),
      if_pos hd]
    exact isPrefixOf?_append ['\x7b'] code
  · have hf : style.dollar = false := Bool.not_eq_true _ ▸ hd
    rw [if_neg hd, List.cons_append, opener?, opener_of_not_dollar hf, if_neg (· rfl),
      if_neg hd, List.nil_append, if_neg (hcode hf)]

/-- A run of literal text with a given text behind it. -/
inductive Literal (style : TemplateSyntax) (following : List Char) : List Char → Prop where
  | nil : Literal style following []
  | plain (c : Char) {run : List Char} (hquote : c ≠ style.quote) (hescape : c ≠ '\x5c')
      (hopener : c ≠ style.opener) (hline : style.singleLine → c ≠ '\n')
      (more : Literal style following run) : Literal style following (c :: run)
  /-- An escape takes any character, even one that ends the line. -/
  | escape (c : Char) {run : List Char} (more : Literal style following run) :
      Literal style following ('\x5c' :: c :: run)
  | brace {run : List Char} (hd : style.dollar = false) (more : Literal style following run) :
      Literal style following ('\x7b' :: '\x7b' :: run)
  | dollar {run : List Char} (hd : style.dollar) (hnot : (run ++ following).head? ≠ some '\x7b')
      (more : Literal style following run) : Literal style following ('$' :: run)
  /-- A quote that does not begin three of them is text where it takes three. -/
  | quote {run : List Char} (ht : style.triple)
      (hnot : ¬ [style.quote, style.quote] <+: run ++ following)
      (more : Literal style following run) : Literal style following (style.quote :: run)

variable {following run : List Char}

/-- A scan of literal text passes over a run. -/
theorem Literal.text_append (hq : style.Quoted) (h : style.Literal following run) :
    style.text (run ++ following) = style.text following := by
  induction h with
  | nil => rfl
  | plain c hquote hescape hopener hline more ih =>
      have hstop : style.stops c = false := by
        simp only [stops, Bool.or_eq_false_iff, beq_eq_false_iff_ne, Bool.and_eq_false_imp]
        exact ⟨⟨⟨hquote, hescape⟩, hopener⟩, hline⟩
      rw [List.cons_append, text_cons_of_plain hstop, ih]
  | escape c more ih =>
      rw [List.cons_append, List.cons_append, text_escape]
      exact ih
  | @brace run hd more ih =>
      have hopener := text_opener hq ('\x7b' :: (run ++ following))
      rw [opener_of_not_dollar hd] at hopener
      rw [List.cons_append, List.cons_append, hopener, if_neg (by rw [hd]; decide),
        List.head?_cons, if_pos rfl]
      exact ih
  | @dollar run hd hnot more ih =>
      have hopener := text_opener hq (run ++ following)
      rw [opener_of_dollar hd] at hopener
      rw [List.cons_append, hopener, if_pos hd, if_neg hnot, ih]
  | @quote run ht hnot more ih =>
      have hnone : [style.quote, style.quote].isPrefixOf? (run ++ following) = none := by
        cases hp : [style.quote, style.quote].isPrefixOf? (run ++ following) with
        | none => rfl
        | some behind => exact absurd ⟨behind, (eq_append_of_isPrefixOf? hp).symm⟩ hnot
      rw [List.cons_append, text_quote hq, if_pos ht, hnone]
      exact ih

theorem Literal.opener?_append (hq : style.Quoted) (h : style.Literal following run)
    (hne : run ≠ []) : style.opener? (run ++ following) = none := by
  cases h with
  | nil => exact absurd rfl hne
  | plain c _ _ hopener => exact opener?_cons_of_ne hopener _
  | escape =>
      refine opener?_cons_of_ne ?_ _
      rw [opener]
      split <;> decide
  | brace hd =>
      rw [List.cons_append, opener?, opener_of_not_dollar hd, if_neg (· rfl),
        if_neg (by rw [hd]; decide), List.cons_append, List.head?_cons, if_pos rfl]
  | @dollar run hd hnot =>
      have hnone : ['\x7b'].isPrefixOf? (run ++ following) = none := by
        cases hp : ['\x7b'].isPrefixOf? (run ++ following) with
        | none => rfl
        | some behind =>
            rw [eq_append_of_isPrefixOf? hp] at hnot
            exact absurd rfl hnot
      rw [List.cons_append, opener?, opener_of_dollar hd, if_neg (· rfl), if_pos hd, hnone]
  | quote => exact opener?_cons_of_ne hq.ne_opener _

/-- Whether a character is text of a format specification. -/
def SpecText (style : TemplateSyntax) (c : Char) : Prop :=
  c ≠ '\x7b' ∧ c ≠ '\x7d' ∧ c ≠ style.quote ∧ (style.singleLine → c ≠ '\n')

theorem not_specText_of_brace (hc : c = '\x7b' ∨ c = '\x7d') : ¬ style.SpecText c := by
  rintro ⟨hopen, hclose, -⟩
  exact hc.elim hopen hclose

theorem not_specText_quote (style : TemplateSyntax) : ¬ style.SpecText style.quote :=
  fun h => h.2.2.1 rfl

theorem specRest_append (hrun : ∀ c ∈ run, style.SpecText c) (hc : ¬ style.SpecText c)
    (s : List Char) : style.specRest (run ++ c :: s) = c :: s := by
  have hclass (d : Char) : (!style.endsSpec d) = true ↔ style.SpecText d := by
    simp only [SpecText, endsSpec, Bool.not_eq_true', Bool.or_eq_false_iff, beq_eq_false_iff_ne,
      Bool.and_eq_false_imp, and_assoc, ne_eq]
  rw [specRest, List.dropWhile_append_of_pos fun d hd => (hclass d).2 (hrun d hd)]
  exact List.dropWhile_cons_of_neg fun h => hc ((hclass c).1 h)

end TemplateSyntax

theorem Frame.scan_spec_of_ne {style : TemplateSyntax} {s : List Char}
    (hopen : s.head? ≠ some '\x7b') (hclose : s.head? ≠ some '\x7d') :
    Frame.scan (.spec style) s = Frame.run style.kind [.spec style] s (style.specRest s) := by
  rw [Frame.scan.eq_def]
  dsimp only
  split
  · exact absurd rfl hopen
  · exact absurd rfl hclose
  · rfl

end Highlight
