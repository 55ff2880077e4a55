import Highlight.Proofs.JsonGrammar
import Highlight.Proofs.SpaceLexemes

/-!
# Errors are single characters

Where a language knows of no construct, one character is an error and the next one is looked at
anew. The constructs themselves are no errors, however little of one there is: a string or a comment
that nothing closes is what it began as. So errors come from the end of the list of rules only,
where nothing of the text has been taken yet. The one rule that gives an error itself is that for a
single quote which opens neither a character nor a lifetime, and it takes the quote alone.

Markup has no errors but those of its scripts. A script is read apart from what is behind it, but
what a step takes does not depend on that, and so its errors are single characters of the whole text
as well.
-/

namespace Highlight

variable {text : List Char} {front back : List Lexeme} {lexeme : Lexeme}

namespace Rule

variable {rule : Rule} {rules : List Rule} {kinds : List Kind}

/-- Whether an error that the rule recognises is the first character and nothing else. -/
def SingleErrors (rule : Rule) : Prop :=
  ∀ (c : Char) (s : List Char) (r : Match), rule (c :: s) = some r → r.kind = .error → r.rest = s

theorem Gives.singleErrors (h : rule.Gives kinds) (hnot : .error ∉ kinds) : rule.SingleErrors :=
  fun c s r hr hkind => absurd (hkind ▸ h (c :: s) r hr) hnot

theorem singleErrors_firstOf (h : ∀ rule ∈ rules, SingleErrors rule) :
    SingleErrors (firstOf rules) := by
  intro c s r hr
  obtain ⟨rule, hmem, hrule⟩ := List.exists_of_findSome?_eq_some hr
  exact h rule hmem c s r hrule

end Rule

namespace Lexer

variable {σ : Type} {lexer : Lexer σ}

/-- Whether an error that the lexer comes upon is one character and nothing else. -/
def SingleErrors (lexer : Lexer σ) : Prop :=
  ∀ (text : List Char) (state : σ) (c : Char) (s : List Char), lexer.Visits text state (c :: s) →
    (lexer.step state c s).kind = .error → (lexer.step state c s).rest = s

theorem scanOr_error {rule : Rule} (h : rule.SingleErrors) {c : Char} {s : List Char}
    (hkind : (scanOr .error rule c s).kind = .error) : (scanOr .error rule c s).rest = s := by
  unfold scanOr at hkind ⊢
  cases hfound : rule (c :: s) with
  | none => rfl
  | some found =>
      rw [hfound] at hkind
      exact h c s found hfound hkind

theorem singleErrors_ofRules {rules : List Rule} (hconsumes : ∀ rule ∈ rules, Rule.Consumes rule)
    (h : ∀ rule ∈ rules, Rule.SingleErrors rule) : (ofRules rules hconsumes).SingleErrors :=
  fun _ _ _ _ _ hkind => scanOr_error (Rule.singleErrors_firstOf h) hkind

/-- An error takes the character it begins with, and what is behind the character is read next. -/
theorem SingleErrors.exists_split (h : lexer.SingleErrors)
    (hlex : lexer.lex text = front ++ lexeme :: back) :
    ∃ c s, lexeme.text ++ back.flatMap Lexeme.text = c :: s ∧
      text = front.flatMap Lexeme.text ++ c :: s ∧
      (lexeme.kind = .error → lexeme.text = [c] ∧ back.flatMap Lexeme.text = s) := by
  obtain ⟨state, c, s, hvisits, hfront, rfl, hback⟩ := lexer.exists_visits hlex
  have hrest : back.flatMap Lexeme.text = (lexer.step state c s).rest := by
    rw [← hback, flatMap_text_run]
  refine ⟨c, s, ?_, ?_, fun hkind => ?_⟩
  · rw [hrest]
    exact before_append_of_suffix (lexer.step_suffix_cons state c s)
  · rw [← hfront]
    exact (before_append_of_suffix hvisits.suffix).symm
  · have hstep := h text state c s hvisits hkind
    rw [hrest, hstep]
    exact ⟨before_append [c] s, rfl⟩

end Lexer

theorem Go.singleErrors_lexer : Go.lexer.SingleErrors := by
  refine Lexer.singleErrors_ofRules Go.consumes_rules fun rule hmem => ?_
  simp only [Go.rules, List.mem_cons, List.not_mem_nil, or_false] at hmem
  rcases hmem with rfl | rfl | rfl | rfl | rfl | rfl | rfl | rfl
  · exact (Rule.gives_run _ _).singleErrors (by decide)
  · exact (CommentSyntax.gives_scan _).singleErrors (by decide)
  · exact (StringSyntax.gives_scan _).singleErrors (by decide)
  · exact Go.gives_scanRune.singleErrors (by decide)
  · exact (NumberSyntax.gives_scan _).singleErrors (by decide)
  · exact (Vocabulary.gives_scan _).singleErrors (by decide)
  · exact (OperatorSyntax.gives_scan _).singleErrors (by decide)
  · exact (Rule.gives_single _ _).singleErrors (by decide)

namespace Rust

theorem singleErrors_scanQuote : Rule.SingleErrors scanQuote := by
  intro c s r hr hkind
  simp only [scanQuote] at hr
  repeat' split at hr
  all_goals cases hr
  · cases hkind
  · cases hkind
  · rfl

theorem singleErrors_lexer : lexer.SingleErrors := by
  refine Lexer.singleErrors_ofRules consumes_rules fun rule hmem => ?_
  simp only [rules, List.mem_cons, List.not_mem_nil, or_false] at hmem
  rcases hmem with rfl | rfl | rfl | rfl | rfl | rfl | rfl | rfl | rfl | rfl | rfl
  · exact (Rule.gives_run _ _).singleErrors (by decide)
  · exact (CommentSyntax.gives_scan _).singleErrors (by decide)
  · exact singleErrors_scanQuote
  · exact gives_scanByte.singleErrors (by decide)
  · exact (StringSyntax.gives_scan _).singleErrors (by decide)
  · exact gives_scanRawIdentifier.singleErrors (by decide)
  · exact (NumberSyntax.gives_scan _).singleErrors (by decide)
  · exact gives_scanAttribute.singleErrors (by decide)
  · exact gives_scanWord.singleErrors (by decide)
  · exact (OperatorSyntax.gives_scan _).singleErrors (by decide)
  · exact (Rule.gives_single _ _).singleErrors (by decide)

end Rust

namespace Json

theorem singleErrors_lexer : lexer.SingleErrors := by
  refine Lexer.singleErrors_ofRules consumes_rules fun rule hmem => ?_
  simp only [rules, List.mem_cons, List.not_mem_nil, or_false] at hmem
  rcases hmem with rfl | rfl | rfl | rfl | rfl
  · exact (Rule.gives_run _ _).singleErrors (by decide)
  · exact gives_scanString.singleErrors (by decide)
  · exact gives_scanNumber.singleErrors (by decide)
  · exact gives_scanConstant.singleErrors (by decide)
  · exact (Rule.gives_single _ _).singleErrors (by decide)

/-- A minus sign belongs to the digits behind it, and no other construct begins with one. -/
theorem firstOf_minus (s : List Char) :
    Rule.firstOf rules ('-' :: s) = scanNumber ('-' :: s) := by
  have hblank : Rule.run .whitespace blanks ('-' :: s) = none := Rule.run_of_notMem (by decide)
  have hstring : scanString ('-' :: s) = none := scanString_of_ne (by decide) s
  have hconstant : scanConstant ('-' :: s) = none := scanConstant_cons_eq_none (by decide) s
  have hmark : Rule.punctuation structural ('-' :: s) = none := by
    rw [Rule.punctuation, Rule.single, if_neg (by decide)]
  rw [rules, Rule.firstOf_cons_of_none hblank, Rule.firstOf_cons_of_none hstring]
  cases hnumber : scanNumber ('-' :: s) with
  | some found => exact Rule.firstOf_cons_of_some hnumber
  | none =>
      rw [Rule.firstOf_cons_of_none hnumber, Rule.firstOf_cons_of_none hconstant,
        Rule.firstOf_cons_of_none hmark, Rule.firstOf_nil]

theorem kind_minus_eq_error_iff (s : List Char) :
    (lexer.step () '-' s).kind = .error ↔ NumberSyntax.atDigit s = false := by
  have hkind : (lexer.step () '-' s).kind = (scanNumber ('-' :: s)).elim .error Match.kind := by
    show (Lexer.scanOr .error (Rule.firstOf rules) '-' s).kind = _
    rw [Lexer.scanOr, firstOf_minus]
    cases scanNumber ('-' :: s) <;> rfl
  rw [hkind]
  cases hdigit : NumberSyntax.atDigit s with
  | false =>
      have hnone : scanNumber ('-' :: s) = none := by
        rw [scanNumber, behindMinus, if_pos rfl, hdigit, if_neg Bool.false_ne_true]
      rw [hnone]
      exact iff_of_true rfl rfl
  | true =>
      refine iff_of_false ?_ (by decide)
      cases hnumber : scanNumber ('-' :: s) with
      | none =>
          rw [scanNumber, behindMinus, if_pos rfl, hdigit] at hnumber
          cases hnumber
      | some found =>
          intro herror
          have hmem := gives_scanNumber _ _ hnumber
          rw [show found.kind = .error from herror] at hmem
          exact absurd hmem (by decide)

end Json

/-! ## Languages with context

What a context adds are pieces of strings, the delimiters of fields and the lexemes of a script. The
first two are of kinds of their own and the third are lexemes of JavaScript, so no error comes of
them that was not one of a rule. -/

theorem Python.singleErrors_lexer : Python.lexer.SingleErrors := by
  intro text state c s hvisits hkind
  have hkind : (Python.step state c s).kind = .error := hkind
  show (Python.step state c s).rest = s
  rcases look_step_cases state c s with
    ⟨found, nesting, hlook⟩ | ⟨nesting, hlook, hc⟩ | ⟨nesting, hlook, hc⟩
  · rw [step_of_piece hlook] at hkind
    have hkind : found.kind = .error := hkind
    rcases (fStrings_of_visits hvisits).kind_look hlook with heq | ⟨style, hstyle, heq⟩
    · rw [heq] at hkind
      cases hkind
    · rw [heq, hstyle.kind] at hkind
      cases hkind
  · rw [step_of_whitespace hlook hc] at hkind
    cases hkind
  · rw [step_of_token hlook hc] at hkind ⊢
    have hkind : (scanToken state nesting c s).1.kind = .error := hkind
    show (scanToken state nesting c s).1.rest = s
    unfold scanToken at hkind ⊢
    split at hkind
    · next found hfound =>
        exact (gives_leading state).singleErrors (by decide) c s found hfound hkind
    · split at hkind
      · next style body hopen =>
          have hstyle : style.kind = .error := hkind
          rw [(fString_of_fString? hopen).kind] at hstyle
          cases hstyle
      · exact Lexer.scanOr_error ((gives_trailing state).singleErrors (by decide)) hkind

namespace JavaScript

theorem error_scanCode {state : State} {nesting : Nesting} {c : Char} {s : List Char} :
    (scanCode state nesting c s).1.kind = .error → (scanCode state nesting c s).1.rest = s := by
  unfold scanCode
  split
  · next found hfound =>
      exact (gives_leading state).singleErrors (by decide) c s found hfound
  · split
    · exact nofun
    · exact Lexer.scanOr_error (gives_trailing.singleErrors (by decide))

theorem error_step {state : State} {c : Char} {s : List Char} (h : Templated state.nesting)
    (hkind : (step state c s).kind = .error) : (step state c s).rest = s := by
  have hkind : (scan state c s).1.kind = .error := hkind
  show (scan state c s).1.rest = s
  rw [scan_eq_look] at hkind ⊢
  cases hlook : state.nesting.look (c :: s) with
  | mk found nesting =>
      rw [hlook] at hkind
      cases found with
      | none => exact error_scanCode hkind
      | some found =>
          have hkind : found.kind = .error := hkind
          rcases h.kind_look hlook with heq | ⟨style, rfl, heq⟩
          · rw [heq] at hkind
            cases hkind
          · rw [heq] at hkind
            cases hkind

theorem singleErrors_lexer : lexer.SingleErrors :=
  fun _ _ _ _ hvisits hkind => error_step (templated_of_visits hvisits) hkind

end JavaScript

namespace Html

theorem kind_stepContent_ne_error (c : Char) (s : List Char) : (stepContent c s).kind ≠ .error := by
  rcases stepContent_cases c s with ⟨hmem, -⟩ | ⟨closing, d, t, -, hopen⟩
  · exact fun heq => absurd (heq ▸ hmem) (by decide)
  · rw [hopen]
    exact (by decide : Kind.punctuation ≠ .error)

theorem singleErrors_lexer : lexer.SingleErrors := by
  intro text state c s hvisits hkind
  match state with
  | .content => exact absurd hkind (kind_stepContent_ne_error c s)
  | .tagName closing => cases hkind
  | .tag raw valueNext =>
      have hkind : (stepTag raw valueNext c s).kind = .error := hkind
      rcases stepTag_cases raw valueNext c s with
        ⟨kind, rest, valueNext', hmem, heq⟩ | ⟨empty, rest, -, heq⟩
      · rw [heq] at hkind
        have hkind : kind = .error := hkind
        exact absurd (hkind ▸ hmem) (by decide)
      · rw [heq] at hkind
        cases hkind
  | .script js [] => exact absurd hkind (kind_stepContent_ne_error c s)
  | .script js (b :: body) =>
      obtain ⟨rest, hsplit, -⟩ := within_of_visits hvisits js (b :: body) rfl
      rw [List.cons_append] at hsplit
      obtain ⟨rfl, rfl⟩ := List.cons.inj hsplit
      have hplain := plain_of_visits hvisits js _ rfl
      rw [step_script] at hkind ⊢
      exact congrArg (· ++ rest) (JavaScript.error_step hplain hkind)
  | .style [] => exact absurd hkind (kind_stepContent_ne_error c s)
  | .style (b :: body) => cases hkind

end Html

theorem Markdown.kind_step_ne_error (lineStart : Bool) (c : Char) (s : List Char) :
    (Markdown.lexer.step lineStart c s).kind ≠ .error := by
  show (Markdown.step lineStart c s).kind ≠ .error
  rcases Markdown.step_cases lineStart c s with
    ⟨-, hstep⟩ | ⟨rest, hstep, -⟩ | ⟨kind, rest, hstep, hmem, -⟩
  · rw [hstep]
    exact (by decide : Kind.whitespace ≠ .error)
  · rw [hstep]
    exact (by decide : Kind.whitespace ≠ .error)
  · rw [hstep]
    intro heq
    have hkind : kind = .error := heq
    exact absurd (hkind ▸ hmem) (by decide)

theorem Language.exists_split_of_lex {language : Language}
    (h : language.lex text = front ++ lexeme :: back) :
    ∃ c s, lexeme.text ++ back.flatMap Lexeme.text = c :: s ∧
      text = front.flatMap Lexeme.text ++ c :: s ∧
      (lexeme.kind = .error → lexeme.text = [c] ∧ back.flatMap Lexeme.text = s) := by
  cases language with
  | python => exact Python.singleErrors_lexer.exists_split h
  | javaScript => exact JavaScript.singleErrors_lexer.exists_split h
  | json => exact Json.singleErrors_lexer.exists_split h
  | html => exact Html.singleErrors_lexer.exists_split h
  | markdown =>
      have hnone : Markdown.lexer.SingleErrors := fun _ state c s _ hkind =>
        absurd hkind (Markdown.kind_step_ne_error state c s)
      exact hnone.exists_split h
  | rust => exact Rust.singleErrors_lexer.exists_split h
  | go => exact Go.singleErrors_lexer.exists_split h

/-- An error is a single character, and the lexemes behind it are those of what is behind the
character. There is none in a language that reads everything as text, and a minus sign is one where
it has to be part of a number and no digit comes next. -/
theorem Language.lexRange_error {language : Language} {range : ByteRange}
    (h : language.lexRange text range = front ++ lexeme :: back) :
    ∃ c s, lexeme.text ++ back.flatMap Lexeme.text = c :: s ∧
      range.slice text = front.flatMap Lexeme.text ++ c :: s ∧
      (lexeme.kind = .error →
        language ≠ .markdown ∧ lexeme.text = [c] ∧ back.flatMap Lexeme.text = s) ∧
      (language = .json → c = '-' →
        (lexeme.kind = .error ↔ NumberSyntax.atDigit s = false)) := by
  rw [lexRange_eq_lex] at h
  obtain ⟨c, s, htext, hsplit, herror⟩ := exists_split_of_lex h
  refine ⟨c, s, htext, hsplit, fun hkind => ⟨?_, herror hkind⟩, ?_⟩
  · rintro rfl
    obtain ⟨state, c', s', -, -, rfl, -⟩ := Markdown.lexer.exists_visits h
    exact Markdown.kind_step_ne_error state c' s' hkind
  · rintro rfl rfl
    obtain ⟨state, c', s', hvisits, hfront, rfl, -⟩ := Json.lexer.exists_visits h
    have hrest : front.flatMap Lexeme.text ++ c' :: s' = range.slice text := by
      rw [← hfront]
      exact before_append_of_suffix hvisits.suffix
    rw [hsplit] at hrest
    obtain ⟨rfl, rfl⟩ := List.cons.inj (List.append_cancel_left hrest)
    exact Json.kind_minus_eq_error_iff s'

/-- A minus sign in front of a letter, which is no construct either. -/
theorem Language.lexRange_error_minus :
    let minus : Lexeme := ⟨.error, ['-']⟩
    let back : List Lexeme := [⟨.error, ['é']⟩, ⟨.numberInteger, ['-', '1']⟩]
    Language.json.lexRange "[-é-1]".toList ⟨1, 6⟩ = [] ++ minus :: back ∧
      minus.text = ['-'] ∧ back.flatMap Lexeme.text = ['é', '-', '1'] ∧
      NumberSyntax.atDigit (back.flatMap Lexeme.text) = false := by
  intro minus back
  have hlex : Language.json.lexRange "[-é-1]".toList ⟨1, 6⟩ = [] ++ minus :: back := by
    decide +kernel
  obtain ⟨c, s, htext, -, herror, hminus⟩ := Language.lexRange_error hlex
  obtain ⟨rfl, rfl⟩ := List.cons.inj htext
  obtain ⟨-, hone, -⟩ := herror rfl
  exact ⟨hlex, hone, rfl, (hminus rfl rfl).1 rfl⟩

end Highlight
