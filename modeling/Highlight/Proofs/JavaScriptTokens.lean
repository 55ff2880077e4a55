import Highlight.Language.JavaScript
import Highlight.Proofs.CodeTokens

/-!
# The tokens of JavaScript

Outside of templates the nesting is empty, and one flag is all that a lexer knows between lexemes:
whether an operand is expected. Only a slash asks for it. Where an operand is expected it opens a
regular expression, and elsewhere it divides, so whether a lexeme is a token is a matter of the flag
too. Every token is taken in front of a gap, and leaves the flag as its own kind and text say.

A regular expression is read in two modes, in a character class and outside of one. Its body is
given by a grammar with the same two, which says where an unescaped slash may stand: in a class
only.
-/

namespace Highlight.JavaScript

variable {c : Char} {w body flags s rest : List Char} {kind : Kind} {state : State}
  {expected inClass : Bool} {t : Lexeme}

/-- The rest of the body of a regular expression, from in a character class or from outside of
one. -/
inductive Regex : (inClass : Bool) → List Char → Prop where
  | nil : Regex false []
  | plain {c : Char} {s : List Char} (hc : c ∉ ['/', '\x5c', '[', '\n']) (more : Regex false s) :
      Regex false (c :: s)
  | escape {inClass : Bool} {c : Char} {s : List Char} (hc : c ≠ '\n') (more : Regex inClass s) :
      Regex inClass ('\x5c' :: c :: s)
  | openClass {s : List Char} (more : Regex true s) : Regex false ('[' :: s)
  | member {c : Char} {s : List Char} (hc : c ∉ ['\x5c', ']', '\n']) (more : Regex true s) :
      Regex true (c :: s)
  | closeClass {s : List Char} (more : Regex false s) : Regex true (']' :: s)

theorem behindRegex_cons (hc : c ≠ '\x5c') (hline : c ≠ '\n') :
    behindRegex inClass (c :: s) =
      if c = '[' then behindRegex true s
      else if c = ']' then behindRegex false s
      else if c = '/' ∧ ¬ inClass then s.dropWhile AsciiSet.letters.has
      else behindRegex inClass s := by
  cases s <;> simp only [behindRegex, if_neg hc, if_neg hline]

theorem behindRegex_escape (hc : c ≠ '\n') :
    behindRegex inClass ('\x5c' :: c :: s) = behindRegex inClass s := by
  rw [behindRegex, if_pos rfl, if_neg hc]

theorem behindRegex_append (h : Regex inClass body)
    (hflags : ∀ c ∈ flags, AsciiSet.letters.has c = true)
    (hrest : Stops AsciiSet.letters.has rest) :
    behindRegex inClass (body ++ '/' :: (flags ++ rest)) = rest := by
  induction h with
  | nil =>
      rw [List.nil_append, behindRegex_cons (by decide) (by decide), if_neg (by decide),
        if_neg (by decide), if_pos ⟨rfl, by decide⟩, hrest.dropWhile_append hflags]
  | @plain c s hc more ih =>
      simp only [List.mem_cons, List.not_mem_nil, or_false, not_or] at hc
      obtain ⟨hslash, hescape, hopen, hline⟩ := hc
      rw [List.cons_append, behindRegex_cons hescape hline, if_neg hopen]
      by_cases hclose : c = ']'
      · rw [if_pos hclose, ih]
      · rw [if_neg hclose, if_neg fun h => hslash h.1, ih]
  | escape hc more ih => rw [List.cons_append, List.cons_append, behindRegex_escape hc, ih]
  | openClass more ih =>
      rw [List.cons_append, behindRegex_cons (by decide) (by decide), if_pos rfl, ih]
  | @member c s hc more ih =>
      simp only [List.mem_cons, List.not_mem_nil, or_false, not_or] at hc
      obtain ⟨hescape, hclose, hline⟩ := hc
      rw [List.cons_append, behindRegex_cons hescape hline]
      by_cases hopen : c = '['
      · rw [if_pos hopen, ih]
      · rw [if_neg hopen, if_neg hclose, if_neg fun h => h.2 rfl, ih]
  | closeClass more ih =>
      rw [List.cons_append, behindRegex_cons (by decide) (by decide), if_neg (by decide),
        if_pos rfl, ih]

/-- Behind its opening slash a regular expression does not go on as a comment would. -/
theorem Regex.head (h : Regex false body) (hne : body ≠ []) (hstar : body.head? ≠ some '*') :
    ∃ c s, body = c :: s ∧ c ≠ '/' ∧ c ≠ '*' := by
  obtain ⟨c, s, rfl⟩ := List.exists_cons_of_ne_nil hne
  refine ⟨c, s, rfl, ?_, fun hc => hstar (congrArg some hc)⟩
  cases h with
  | plain hc => exact fun h => hc (h ▸ List.mem_cons_self)
  | escape => decide
  | openClass => decide

/-- The tokens, with their kinds, given whether an operand is expected in front of them. -/
inductive Token : (expected : Bool) → Lexeme → Prop where
  | word {expected : Bool} {w : List Char} (hw : Word .identStartDollar .identContinueDollar w) :
      Token expected ⟨vocabulary.kind w, w⟩
  | number {expected : Bool} {kind : Kind} {w : List Char} (hw : numbers.Literal kind w) :
      Token expected ⟨kind, w⟩
  | string {expected : Bool} {kind : Kind} {affix w : List Char}
      (hw : strings.Literal affix kind w) : Token expected ⟨kind, w⟩
  | operator {expected : Bool} {w : List Char} (hw : w ∈ operators.spellings)
      (hslash : w = ['/'] ∨ w = ['/', '='] → expected = false) : Token expected ⟨.operator, w⟩
  | punctuation {expected : Bool} {c : Char} (hc : punctuation.has c = true) :
      Token expected ⟨.punctuation, [c]⟩
  | regex {body flags : List Char} (hbody : Regex false body) (hne : body ≠ [])
      (hstar : body.head? ≠ some '*') (hflags : ∀ c ∈ flags, AsciiSet.letters.has c = true) :
      Token true ⟨.stringRegex, '/' :: (body ++ '/' :: flags)⟩

/-- What JavaScript's tokens are made of. -/
def parts : CodeSyntax where
  comments := comments
  strings := strings
  numbers := numbers
  operators := operators
  punctuation := punctuation
  wordStart := .identStartDollar
  wordSet := .identContinueDollar

theorem clear_parts : parts.Clear where
  numbers := by constructor <;> decide
  operators := by constructor <;> decide
  letters := by decide
  openings := by decide
  markers := by decide
  words := by constructor <;> decide
  signs := CodeSyntax.forall_mem_signs (by decide) (AsciiSet.forall_of_spelt rfl (by decide))
  signStarts := CodeSyntax.forall_mem_signs (by decide) (AsciiSet.forall_of_spelt rfl (by decide))
  punctuation := AsciiSet.forall_of_spelt rfl (by decide)

/-- The parts with the proof that they can be told apart. -/
def code : CodeSyntax.Distinct := ⟨parts, clear_parts⟩

/-- Where a scan stands between tokens: outside of any template, with the flag set so. -/
def Between (expected : Bool) (state : State) : Prop :=
  state.nesting = [] ∧ state.operandNext = expected

theorem takes_of_scanCode (hne : t.text ≠ [])
    (h : ∀ state c s, state.operandNext = expected → t.text ++ rest = c :: s →
      scanCode state [] c s = (⟨t.kind, rest⟩, [])) :
    lexer.Takes (Between expected) t rest (Between (operandAfter t.kind t.text expected)) := by
  rintro state ⟨hnesting, hexpected⟩
  refine ⟨⟨false, operandAfter t.kind t.text expected, []⟩, ⟨rfl, rfl⟩, ?_⟩
  refine Lexer.run_append hne fun c s hcs => ?_
  have hscan : scan state c s = (⟨t.kind, rest⟩, []) := by
    rw [scan, hnesting]
    exact h state c s hexpected hcs
  show step state c s = _
  simp only [step, hscan, ← hcs, before_append, hexpected]

theorem takes_of_leading (hne : t.text ≠ [])
    (h : ∀ state : State, state.operandNext = expected →
      Rule.firstOf (leading state) (t.text ++ rest) = some ⟨t.kind, rest⟩) :
    lexer.Takes (Between expected) t rest (Between (operandAfter t.kind t.text expected)) := by
  refine takes_of_scanCode hne fun state c s hexpected hcs => ?_
  have hleading := h state hexpected
  rw [hcs] at hleading
  rw [scanCode, hleading]

/-- What the rules behind that for templates read is taken, if nothing in front of them does. -/
theorem takes_of_trailing (hvisible : Visible t.text)
    (hhead : ∀ c ∈ t.text.head?, c ≠ '#' ∧ c ≠ '\x60' ∧ (c = '/' → expected = false))
    (hcomments : Rule.Declines t.text comments.scan)
    (h : Rule.Recognises t (Rule.firstOf trailing)) (hrest : Gap rest) :
    lexer.Takes (Between expected) t rest (Between (operandAfter t.kind t.text expected)) := by
  refine takes_of_scanCode hvisible.ne_nil fun state c s hexpected hcs => ?_
  obtain ⟨d, t', htext, hd⟩ := hvisible
  have hc : d = c := by
    rw [htext] at hcs
    exact (List.cons.inj hcs).1
  subst hc
  obtain ⟨hhash, htemplate, hslash⟩ := hhead d (by rw [htext]; rfl)
  -- A slash in front of these rules is a division, as no operand is expected.
  have hregex : scanRegex state.operandNext (d :: s) = none := by
    rw [scanRegex, if_neg]
    rintro ⟨hd, hnext⟩
    rw [hexpected, hslash hd] at hnext
    cases hnext
  have hcomment := hcomments rest hrest
  have htrailing := h rest hrest
  rw [hcs] at hcomment htrailing
  have hleading : Rule.firstOf (leading state) (d :: s) = none := by
    rw [leading, Rule.firstOf_cons_of_none (Rule.whitespace_of_notMem hd),
      Rule.firstOf_cons_of_none (scanHashbang_of_ne hhash _ _),
      Rule.firstOf_cons_of_none hcomment, Rule.firstOf_cons_of_none hregex, Rule.firstOf_nil]
  rw [scanCode, hleading]
  dsimp only
  rw [if_neg htemplate, Lexer.scanOr, htrailing]
  rfl

theorem readsWords : Rule.ReadsWords .identStartDollar .identContinueDollar vocabulary.kind
    scanWord := by
  refine Rule.readsWords_of_gap (by decide) (by decide) (fun s hs => ?_) fun s hs _ => ?_
  · rw [scanWord, hs, if_neg (by decide)]
  · rw [scanWord, hs, if_pos rfl]

theorem scanPrivate_of_ne (hc : c ≠ '#') (s : List Char) : scanPrivate (c :: s) = none :=
  if_neg fun h => hc h.1

theorem head_of_ne {p : Char → Prop} (hw : ∃ c s, w = c :: s ∧ p c)
    (hp : ∀ c, p c → c ≠ '#' ∧ c ≠ '\x60' ∧ c ≠ '/') :
    ∀ c ∈ w.head?, c ≠ '#' ∧ c ≠ '\x60' ∧ (c = '/' → expected = false) := by
  obtain ⟨c, s, rfl, hc⟩ := hw
  rintro d ⟨⟩
  obtain ⟨hhash, htemplate, hslash⟩ := hp c hc
  exact ⟨hhash, htemplate, fun h => absurd h hslash⟩

theorem takes_word (hw : Word .identStartDollar .identContinueDollar w) (hrest : Gap rest) :
    lexer.Takes (Between expected) ⟨vocabulary.kind w, w⟩ rest
      (Between (operandAfter (vocabulary.kind w) w expected)) := by
  have hplain := code.clear.word_plain hw
  have hhead := @head_of_ne w expected _ hw.head fun c hc =>
    ⟨ne_of_class hc (by decide), ne_of_class hc (by decide), ne_of_class hc (by decide)⟩
  exact takes_of_trailing hplain.visible hhead hplain.comments
    (.behind hplain.strings <| .behind (code.clear.numbers_decline_word hw) <|
      .first (readsWords.recognises hw)) hrest

theorem takes_number (hw : numbers.Literal kind w) (hrest : Gap rest) :
    lexer.Takes (Between expected) ⟨kind, w⟩ rest (Between (operandAfter kind w expected)) := by
  have hplain := code.clear.number_plain hw
  have hhead := @head_of_ne w expected _ hw.head fun c hc =>
    ⟨ne_of_class hc (by decide), ne_of_class hc (by decide), ne_of_class hc (by decide)⟩
  exact takes_of_trailing hplain.visible hhead hplain.comments
    (.behind hplain.strings <| .first (code.clear.recognises_number hw)) hrest

theorem takes_string {affix : List Char} (hw : strings.Literal affix kind w) (hrest : Gap rest) :
    lexer.Takes (Between expected) ⟨kind, w⟩ rest (Between (operandAfter kind w expected)) := by
  have hstart : ∀ c ∈ strings.openings, c ≠ '#' ∧ c ≠ '\x60' ∧ c ≠ '/' := by decide
  exact takes_of_trailing (code.clear.string_visible hw) (head_of_ne hw.head hstart)
    (code.clear.comments_decline_string hw) (.first (code.clear.recognises_string hw)) hrest

/-- Only two operators begin with a slash, and no comment begins with either in front of a gap. -/
theorem takes_sign (h : code.Sign t)
    (hslash : t.text = ['/'] ∨ t.text = ['/', '='] → expected = false) (hrest : Gap rest) :
    lexer.Takes (Between expected) t rest (Between (operandAfter t.kind t.text expected)) := by
  have hstart : ∀ w ∈ code.signs, ∀ c ∈ w.head?, c ≠ '#' ∧ c ≠ '\x60' ∧
      (c = '/' → w = ['/'] ∨ w = ['/', '=']) :=
    CodeSyntax.forall_mem_signs (by decide) (AsciiSet.forall_of_spelt rfl (by decide))
  have hplain := code.clear.sign_plain h
  have hprivate : Rule.Declines t.text scanPrivate :=
    Rule.declines_of_head (code.clear.sign_head (fun w hw c hc => (hstart w hw c hc).1) h)
      fun _ hc => scanPrivate_of_ne hc
  refine takes_of_trailing hplain.visible (fun c hc => ?_) hplain.comments
    (.behind hplain.strings <| .behind (code.clear.numbers_decline_sign h) <|
      .behind (code.clear.words_decline_sign readsWords h) <| .behind hprivate <|
      code.clear.recognises_sign h) hrest
  obtain ⟨hne, htemplate, htwo⟩ := hstart t.text h.mem c hc
  exact ⟨hne, htemplate, fun hc => hslash (htwo hc)⟩

theorem takes_regex (hbody : Regex false body) (hne : body ≠ []) (hstar : body.head? ≠ some '*')
    (hflags : ∀ c ∈ flags, AsciiSet.letters.has c = true) (hrest : Gap rest) :
    lexer.Takes (Between true) ⟨.stringRegex, '/' :: (body ++ '/' :: flags)⟩ rest
      (Between (operandAfter .stringRegex ('/' :: (body ++ '/' :: flags)) true)) := by
  refine takes_of_leading (List.cons_ne_nil _ _) fun state hexpected => ?_
  have hbehind := behindRegex_append hbody hflags (hrest.stops (by decide))
  have hregex : scanRegex state.operandNext ('/' :: (body ++ '/' :: (flags ++ rest))) =
      some ⟨.stringRegex, rest⟩ := by
    rw [scanRegex, if_pos ⟨rfl, hexpected⟩, hbehind]
  have hcomment : comments.scan ('/' :: (body ++ '/' :: (flags ++ rest))) = none := by
    obtain ⟨c, s, rfl, hslash, hmark⟩ := hbody.head hne hstar
    have hmarkers : comments.markers = [['/', '/'], ['/', '*']] := by decide
    refine CommentSyntax.scan_eq_none fun marker hmem => ?_
    rw [hmarkers] at hmem
    simp only [List.mem_cons, List.not_mem_nil, or_false] at hmem
    rcases hmem with rfl | rfl
    · simp [List.isPrefixOf, hslash.symm]
    · simp [List.isPrefixOf, hmark.symm]
  have hassoc : '/' :: (body ++ '/' :: flags) ++ rest =
      '/' :: (body ++ '/' :: (flags ++ rest)) := by
    rw [List.cons_append, List.append_assoc, List.cons_append]
  rw [hassoc, leading, Rule.firstOf_cons_of_none (Rule.whitespace_of_notMem (by decide)),
    Rule.firstOf_cons_of_none (scanHashbang_of_ne (by decide) _ _),
    Rule.firstOf_cons_of_none hcomment, Rule.firstOf_cons_of_some hregex]

theorem Token.takes (h : Token expected t) (hrest : Gap rest) :
    lexer.Takes (Between expected) t rest (Between (operandAfter t.kind t.text expected)) := by
  cases h with
  | word hw => exact takes_word hw hrest
  | number hw => exact takes_number hw hrest
  | string hw => exact takes_string hw hrest
  | operator hw hslash => exact takes_sign (.operator hw) hslash hrest
  | punctuation hc =>
      refine takes_sign (.punctuation hc) (fun h => ?_) hrest
      have hslash : JavaScript.punctuation.has '/' = false := by decide
      simp only [List.cons.injEq, and_true, List.ne_cons_self, and_false, or_false] at h
      rw [h, hslash] at hc
      cases hc
  | regex hbody hne hstar hflags => exact takes_regex hbody hne hstar hflags hrest

theorem Token.visible (h : Token expected t) : Visible t.text := by
  cases h with
  | word hw => exact (code.clear.word_plain hw).visible
  | number hw => exact hw.visible
  | string hw => exact code.clear.string_visible hw
  | operator hw => exact (code.clear.sign_plain (.operator hw)).visible
  | punctuation hc => exact (code.clear.sign_plain (.punctuation hc)).visible
  | regex => exact ⟨_, _, rfl, by decide⟩

end Highlight.JavaScript
