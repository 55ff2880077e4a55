import Highlight.Proofs.RustTokens

/-!
# Raw strings

A raw string is closed by a quote with as many hashes behind it as are in front of the quote that
opens it. Nothing else in it means anything, backslashes and line breaks included, so its body is
just any text in which the closing delimiter does not occur. That the body may end in the front of a
delimiter does no harm: a delimiter that began in the body and ended behind it would have the quote
of the closing one among its hashes.

With hashes and without, two scans do the work. The one for quoted text reads a raw text without
hashes as the one for hashes would read it with none, and from there on the number of hashes does
not matter.
-/

namespace Highlight

namespace Quoted

variable {n : Nat} {s : List Char}

/-- The opening delimiter of a raw text in a number of hashes. -/
def opening (n : Nat) : List Char :=
  List.replicate n '#' ++ ['\x22']

theorem hashedRest_eq_nil (h : ¬ closing n <:+: s) : hashedRest n s = [] := by
  induction s with
  | nil => rfl
  | cons c s ih =>
      have hmore := ih fun hin => h (hin.trans (List.suffix_cons c s).isInfix)
      rw [hashedRest]
      by_cases hc : c = '\x22'
      · subst hc
        have hnone : (List.replicate n '#').isPrefixOf? s = none :=
          isPrefixOf?_eq_none fun hprefix => h (List.prefix_cons_inj _ |>.2 hprefix).isInfix
        rw [if_pos rfl, hnone]
        exact hmore
      · rw [if_neg hc, hmore]

/-- Without hashes a raw text ends at the first quote. -/
theorem rest_raw (s : List Char) : rest '\x22' false true s = hashedRest 0 s := by
  induction s with
  | nil => exact rest_nil
  | cons c s ih =>
      rw [hashedRest]
      by_cases hc : c = '\x22'
      · subst hc
        rw [rest_quote, if_pos rfl]
        rfl
      · have hplain : looksAt '\x22' false true c = false :=
          looksAt_eq_false_iff.2
            ⟨hc, fun h => absurd h (by decide), fun h => absurd h (by decide)⟩
        rw [rest_cons_of_plain hplain, if_neg hc, ih]

end Quoted

namespace Rust

variable {affix body s : List Char} {n : Nat}

/-- The affixes of raw strings. -/
def rawAffixes : List (List Char) := [['r'], ['b', 'r'], ['c', 'r']]

theorem affix_of_raw (h : affix ∈ rawAffixes) :
    strings.Affix affix ∧ StringSyntax.isRaw affix = true := by
  have hall : ∀ affix ∈ rawAffixes, (∀ c ∈ affix, c ∈ strings.affixes) ∧
      affix.length ≤ strings.maxAffix ∧ StringSyntax.isRaw affix = true := by decide
  obtain ⟨hletters, hlength, hraw⟩ := hall affix h
  exact ⟨⟨hletters, hlength⟩, hraw⟩

/-- With hashes or without, what is behind the opening delimiter is read in the same way. -/
theorem exists_opening (hraw : StringSyntax.isRaw affix = true) (n : Nat) (s : List Char) :
    ∃ c t, Quoted.opening n ++ s = c :: t ∧ strings.opens affix c = true ∧
      strings.scanQuoted affix (c :: t) = some ⟨.string, Quoted.hashedRest n s⟩ := by
  have hquote : strings.Quote '\x22' := .double rfl
  rw [Quoted.opening, List.append_assoc, List.singleton_append]
  cases n with
  | zero =>
      refine ⟨'\x22', s, rfl, hquote.opens affix, ?_⟩
      rw [StringSyntax.scanQuoted_quote hquote nofun, hraw, ← Quoted.rest_raw]
      rfl
  | succ n =>
      exact ⟨'#', _, rfl, StringSyntax.opens_hash rfl hraw, StringSyntax.scanQuoted_hashed hraw n s⟩

theorem firstOf_raw (h : affix ∈ rawAffixes) (n : Nat) (s : List Char) :
    Rule.firstOf rules (affix ++ (Quoted.opening n ++ s)) =
      some ⟨.string, Quoted.hashedRest n s⟩ := by
  obtain ⟨haffix, hraw⟩ := affix_of_raw h
  obtain ⟨c, t, hopening, hopens, hquoted⟩ := exists_opening hraw n s
  have hletters : ∀ c ∈ strings.affixes, AsciiSet.letters.has c = true := by decide
  have haffix? := StringSyntax.affix?_append hletters haffix hopens t
  have hscan := StringSyntax.scan_affix_append hletters haffix hopens hquoted
  obtain ⟨d, affix, rfl⟩ := List.exists_cons_of_ne_nil (StringSyntax.ne_nil_of_isRaw hraw)
  rw [hopening]
  exact firstOf_of_affix? haffix? hscan

/-- A raw string is one lexeme, up to and with its closing delimiter. One that has none is one as
well, up to the end of the text. -/
theorem run_raw (haffix : affix ∈ rawAffixes) (hbody : ¬ Quoted.closing n <:+: body) :
    (∀ rest, lexer.run () (affix ++ (Quoted.opening n ++ (body ++ (Quoted.closing n ++ rest)))) =
      ⟨.string, affix ++ (Quoted.opening n ++ (body ++ Quoted.closing n))⟩ ::
        lexer.run () rest) ∧
    lexer.run () (affix ++ (Quoted.opening n ++ body)) =
      [⟨.string, affix ++ (Quoted.opening n ++ body)⟩] := by
  have hne (s : List Char) : affix ++ s ≠ [] := fun hnil =>
    StringSyntax.ne_nil_of_isRaw (affix_of_raw haffix).2 (List.append_eq_nil_iff.1 hnil).1
  constructor
  · intro rest
    have hscan := firstOf_raw haffix n (body ++ (Quoted.closing n ++ rest))
    rw [Quoted.hashedRest_append hbody] at hscan
    have hassoc : affix ++ (Quoted.opening n ++ (body ++ (Quoted.closing n ++ rest))) =
        affix ++ (Quoted.opening n ++ (body ++ Quoted.closing n)) ++ rest := by
      simp only [List.append_assoc]
    rw [hassoc] at hscan ⊢
    exact Lexer.run_ofRules_append consumes_rules (hne _) hscan
  · have hscan := firstOf_raw haffix n body
    rw [Quoted.hashedRest_eq_nil hbody, ← List.append_nil (affix ++ _)] at hscan
    have hrun := Lexer.run_ofRules_append consumes_rules (hne _) hscan
    rw [List.append_nil, Lexer.run_nil] at hrun
    exact hrun

/-- The body ends in a quote and a hash, one hash short of the closing delimiter. -/
theorem run_raw_partial :
    let body := ['é', '\x22', '\x5c', '\n', '\x22', '#']
    let text := ['b', 'r'] ++ (Quoted.opening 2 ++ body)
    (¬ Quoted.closing 2 <:+: body) ∧
      lexer.run () (text ++ ['\x22', '#', '#', '#']) =
        [⟨.string, text ++ ['\x22', '#', '#']⟩, ⟨.punctuation, ['#']⟩] ∧
      lexer.run () text = [⟨.string, text⟩] := by
  intro body text
  have hbody : ¬ Quoted.closing 2 <:+: body := by decide
  obtain ⟨hclosed, hopen⟩ := @run_raw ['b', 'r'] body 2 (by decide) hbody
  have hrest : lexer.run () ['#'] = [⟨.punctuation, ['#']⟩] := by decide +kernel
  have hclosed := hclosed ['#']
  rw [hrest] at hclosed
  exact ⟨hbody, hclosed, hopen⟩

end Rust

end Highlight
