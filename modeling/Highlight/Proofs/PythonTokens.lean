import Highlight.Language.Python
import Highlight.Proofs.CodeTokens
import Highlight.Proofs.Printing

/-!
# The tokens of Python

Outside of strings with embedded code the nesting is empty and stays so, and then neither it nor the
rule for such strings has a say: a string without an `f` in its affix is one token, and nothing else
begins with an affix and a quote. The rest of what a lexer knows between lexemes, whether it is at
the front of the text or of a line, matters to no token. An at sign decorates only with a name right
behind it.
-/

namespace Highlight.Python

variable {c : Char} {affix body w s rest : List Char} {kind : Kind} {state : State} {t : Lexeme}

/-- The tokens, with their kinds. An affix with an `f` makes a string with embedded code, which is
more than one token. -/
inductive Token : Lexeme → Prop where
  | word {w : List Char} (hw : Identifier w) : Token ⟨wordKind w, w⟩
  | number {kind : Kind} {w : List Char} (hw : numbers.Literal kind w) : Token ⟨kind, w⟩
  | string {kind : Kind} {affix w : List Char} (hplain : ∀ c ∈ affix, c ≠ 'f' ∧ c ≠ 'F')
      (hw : strings.Literal affix kind w) : Token ⟨kind, w⟩
  | operator {w : List Char} (hw : w ∈ operators.spellings) : Token ⟨.operator, w⟩
  | punctuation {c : Char} (hc : punctuation.has c = true) : Token ⟨.punctuation, [c]⟩

/-- What Python's tokens are made of. -/
def parts : CodeSyntax where
  comments := comments
  strings := strings
  numbers := numbers
  operators := operators
  punctuation := punctuation

theorem clear_parts : parts.Clear where
  numbers := by constructor <;> decide
  operators := by constructor <;> decide
  letters := by decide
  openings := by decide
  markers := by decide
  words := .ident
  signs := CodeSyntax.forall_mem_signs (by decide) (AsciiSet.forall_of_spelt rfl (by decide))
  signStarts := CodeSyntax.forall_mem_signs (by decide) (AsciiSet.forall_of_spelt rfl (by decide))
  punctuation := AsciiSet.forall_of_spelt rfl (by decide)

/-- The parts with the proof that they can be told apart. -/
def code : CodeSyntax.Distinct := ⟨parts, clear_parts⟩

theorem step_of_nesting_nil (h : state.nesting = []) (c : Char) (s : List Char) :
    step state c s = stepCode state [] c s := by
  rw [step, h]
  rfl

theorem takes_blank (s : List Char) (hs : Stops AsciiSet.whitespace.has s) :
    lexer.Takes (·.nesting = []) blank s (·.nesting = []) := by
  intro state hstate
  have hspace : Rule.whitespace (' ' :: s) = some ⟨.whitespace, s⟩ :=
    @Rule.run_append .whitespace .whitespace [' '] s (List.cons_ne_nil _ _) (by decide) hs
  have hblank : ∃ state' : State, state'.nesting = [] ∧
      step state ' ' s = ⟨.whitespace, s, state'⟩ := by
    rw [step_of_nesting_nil hstate]
    simp only [stepCode, hspace]
    exact ⟨⟨false, _, []⟩, rfl, rfl⟩
  obtain ⟨state', hnil, hstep⟩ := hblank
  refine ⟨state', hnil, Lexer.run_append (List.cons_ne_nil _ _) fun c t hct => ?_⟩
  obtain ⟨rfl, rfl⟩ := List.cons.inj hct
  exact hstep

theorem fString?_eq_none (h : strings.affix? s = none) : fString? s = none := by
  rw [fString?, h]

theorem fString?_of_affix? (hplain : ∀ c ∈ affix, c ≠ 'f' ∧ c ≠ 'F')
    (h : strings.affix? s = some affix) : fString? s = none := by
  have hany : ¬ (affix.any fun c => c == 'f' || c == 'F') = true := by
    rw [List.any_eq_true]
    rintro ⟨c, hc, hf⟩
    rw [Bool.or_eq_true, beq_iff_eq, beq_iff_eq] at hf
    exact hf.elim (hplain c hc).1 (hplain c hc).2
  rw [fString?, h]
  exact if_neg hany

/-- The line that names an interpreter begins as a comment does. -/
theorem scanHashbang_of_comments (h : comments.scan (c :: s) = none) (fresh : Bool) :
    scanHashbang fresh (c :: s) = none := by
  refine scanHashbang_of_ne ?_ fresh s
  rintro rfl
  cases h

/-- What the rules behind that for f-strings read is taken, if nothing in front of them does. -/
theorem takes_of_trailing (hvisible : Visible t.text)
    (hcomments : Rule.Declines t.text comments.scan)
    (hstring : ∀ rest, Gap rest → fString? (t.text ++ rest) = none)
    (h : ∀ state, Rule.Recognises t (Rule.firstOf (trailing state))) (hrest : Gap rest) :
    lexer.Takes (·.nesting = []) t rest (·.nesting = []) := by
  intro state hstate
  refine ⟨⟨false, false, []⟩, rfl, Lexer.run_append hvisible.ne_nil fun c s hcs => ?_⟩
  have hspace := Rule.whitespace_declines hvisible rest hrest
  have hcomment := hcomments rest hrest
  have hf := hstring rest hrest
  have htrailing := h state rest hrest
  rw [hcs] at hspace hcomment hf htrailing
  have hleading : Rule.firstOf (leading state) (c :: s) = none := by
    rw [leading, Rule.firstOf_cons_of_none (scanHashbang_of_comments hcomment _),
      Rule.firstOf_cons_of_none hcomment, Rule.firstOf_nil]
  show step state c s = _
  rw [step_of_nesting_nil hstate]
  simp only [stepCode, hspace, scanToken, hleading, hf, Lexer.scanOr, htrailing, Option.getD_some]

theorem scanDecorator_of_ne (hc : c ≠ '@') (lineStart : Bool) (s : List Char) :
    scanDecorator lineStart (c :: s) = none :=
  if_neg fun h => hc h.1

/-- An at sign is an operator where no name stands behind it. -/
theorem scanDecorator_of_not_atWord (h : atWord .identStart s = false) (lineStart : Bool) :
    scanDecorator lineStart (c :: s) = none :=
  if_neg fun hc => absurd hc.2.2 (by rw [h]; decide)

theorem readsWords : Rule.ReadsWords .identStart .identContinue wordKind scanWord := by
  refine Rule.readsWords_of_gap (by decide) (by decide) (fun s hs => ?_) fun s hs _ => ?_
  · rw [scanWord, behindIdentifier?, hs, if_neg (by decide)]
  · rw [scanWord, behindIdentifier?, hs, if_pos rfl]
    rfl

/-- A text that no string begins with is taken for what the rules behind those for strings say. -/
theorem takes_of_plain (hplain : code.Plain t.text)
    (h : ∀ state, Rule.Recognises t (Rule.firstOf (trailing state))) (hrest : Gap rest) :
    lexer.Takes (·.nesting = []) t rest (·.nesting = []) :=
  takes_of_trailing hplain.visible hplain.comments
    (fun rest hrest => fString?_eq_none (hplain.affix rest hrest)) h hrest

theorem takes_word (hw : Identifier w) (hrest : Gap rest) :
    lexer.Takes (·.nesting = []) ⟨wordKind w, w⟩ rest (·.nesting = []) := by
  have hplain := code.clear.word_plain hw
  have hdecorator (lineStart : Bool) : Rule.Declines w (scanDecorator lineStart) :=
    Rule.declines_of_head hw.head fun c hc => scanDecorator_of_ne (ne_of_class hc (by decide)) _
  exact takes_of_plain hplain (fun state => .behind hplain.strings <|
    .behind (code.clear.numbers_decline_word hw) <| .behind (hdecorator state.lineStart) <|
    .first (readsWords.recognises hw)) hrest

theorem takes_number (hw : numbers.Literal kind w) (hrest : Gap rest) :
    lexer.Takes (·.nesting = []) ⟨kind, w⟩ rest (·.nesting = []) := by
  have hplain := code.clear.number_plain hw
  exact takes_of_plain hplain (fun _ => .behind hplain.strings <|
    .first (code.clear.recognises_number hw)) hrest

theorem takes_string (haffix : ∀ c ∈ affix, c ≠ 'f' ∧ c ≠ 'F')
    (hw : strings.Literal affix kind w) (hrest : Gap rest) :
    lexer.Takes (·.nesting = []) ⟨kind, w⟩ rest (·.nesting = []) :=
  takes_of_trailing (code.clear.string_visible hw) (code.clear.comments_decline_string hw)
    (fun rest _ => fString?_of_affix? haffix (hw.affix?_append code.clear.letters rfl rest))
    (fun _ => .first (code.clear.recognises_string hw)) hrest

/-- No sign has a name behind its first character, and neither has a gap. -/
theorem scanDecorator_declines_sign (h : code.Sign t) (lineStart : Bool) :
    Rule.Declines t.text (scanDecorator lineStart) := by
  have htail : ∀ w ∈ code.signs, ∀ c ∈ w.tail.head?, startsWord .identStart c = false :=
    CodeSyntax.forall_mem_signs (by decide) (AsciiSet.forall_of_spelt rfl (by decide))
  obtain ⟨c, s, hcs⟩ := List.exists_cons_of_ne_nil (code.clear.signs _ h.mem).1
  intro rest hrest
  have hstop : Stops (startsWord .identStart) rest := hrest.stops (by decide)
  have hname : Stops (startsWord .identStart) (s ++ rest) :=
    .append (fun d hd => htail t.text h.mem d (by rw [hcs]; exact hd)) hstop
  rw [hcs, List.cons_append, scanDecorator_of_not_atWord]
  cases hs : s ++ rest with
  | nil => rfl
  | cons d s => exact hname d (by rw [hs]; rfl)

theorem takes_sign (h : code.Sign t) (hrest : Gap rest) :
    lexer.Takes (·.nesting = []) t rest (·.nesting = []) := by
  have hplain := code.clear.sign_plain h
  exact takes_of_plain hplain (fun state => .behind hplain.strings <|
    .behind (code.clear.numbers_decline_sign h) <|
    .behind (scanDecorator_declines_sign h state.lineStart) <|
    .behind (code.clear.words_decline_sign readsWords h) <| code.clear.recognises_sign h) hrest

theorem Token.takes (h : Token t) (hrest : Gap rest) :
    lexer.Takes (·.nesting = []) t rest (·.nesting = []) := by
  cases h with
  | word hw => exact takes_word hw hrest
  | number hw => exact takes_number hw hrest
  | string hplain hw => exact takes_string hplain hw hrest
  | operator hw => exact takes_sign (.operator hw) hrest
  | punctuation hc => exact takes_sign (.punctuation hc) hrest

theorem Token.visible (h : Token t) : Visible t.text := by
  cases h with
  | word hw => exact hw.visible
  | number hw => exact hw.visible
  | string hplain hw => exact code.clear.string_visible hw
  | operator hw => exact (code.clear.sign_plain (.operator hw)).visible
  | punctuation hc => exact (code.clear.sign_plain (.punctuation hc)).visible

theorem lex_tokens {tokens : List Lexeme} (h : ∀ t ∈ tokens, Token t) :
    lexer.lex (printed tokens) = tokens.intersperse blank :=
  Lexer.run_printed takes_blank (fun _ _ ht hrest => ht.takes hrest) (fun _ ht => ht.visible) h rfl

end Highlight.Python
