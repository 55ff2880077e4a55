import Mathlib.Algebra.Ring.Parity
import Highlight.Proofs.OpenStrings
import Highlight.Proofs.TemplateNesting

/-!
# Quotes and backslashes in f-strings

Two characters mean less in some f-strings than in others. In triple quotes a quote that begins no
three of them is text, and behind an `r` a backslash is. Literal text goes by the first, but a
format specification does not: it stops at any quote, and what lies below decides. That is the
literal text of the same string, under whatever specifications the field is nested in, and it takes
the quote for the text that it is. So the rest of the specification is literal text from there on,
and so is the brace that closes the field.

The second is looked at nowhere. A backslash takes the next character along in every f-string, and
if this is a brace, then it opens no field, and the braces behind it are paired without it. A run of
braces with backslashes in front of it opens a field if and only if there is an odd number of the
two together: an odd number of braces, as it should be, just where the number of backslashes is
even.
-/

namespace Highlight

namespace TemplateSyntax

variable {style : TemplateSyntax} {following run run' t : List Char} {n k : Nat}

theorem Literal.append (h : style.Literal (run' ++ following) run)
    (hmore : style.Literal following run') : style.Literal following (run ++ run') := by
  induction h with
  | nil => exact hmore
  | plain c hquote hescape hopener hline more ih => exact .plain c hquote hescape hopener hline ih
  | escape c more ih => exact .escape c ih
  | brace hd more ih => exact .brace hd ih
  | dollar hd hnot more ih => exact .dollar hd (List.append_assoc .. ▸ hnot) ih
  | quote ht hnot more ih => exact .quote ht (List.append_assoc .. ▸ hnot) ih

/-- Two quotes in front of what begins with another character are two quotes by themselves. -/
theorem quotes_prefix_of_append {quote : Char} (hfollowing : following.head? ≠ some quote)
    (h : [quote, quote] <+: run ++ following) : [quote, quote] <+: run := by
  have hstop (hquote : [quote] <+: following) : False := by
    obtain ⟨s, rfl⟩ := hquote
    exact hfollowing rfl
  match run with
  | [] => exact (hstop ((List.prefix_append [quote] [quote]).trans h)).elim
  | [c] => exact (hstop (List.cons_prefix_cons.1 h).2).elim
  | c :: d :: run =>
      obtain ⟨rfl, hmore⟩ := List.cons_prefix_cons.1 h
      obtain ⟨rfl, -⟩ := List.cons_prefix_cons.1 hmore
      exact ⟨run, rfl⟩

/-- In triple quotes, text without braces and backslashes goes on up to three quotes in a row. -/
theorem literal_of_noQuotes (htriple : style.triple = true) (hd : style.dollar = false)
    (hrun : ∀ c ∈ run, c ≠ '\x7b' ∧ c ≠ '\x5c')
    (hquotes : ¬ [style.quote, style.quote, style.quote] <:+: run)
    (hfollowing : following.head? ≠ some style.quote) : style.Literal following run := by
  induction run with
  | nil => exact .nil
  | cons c run ih =>
      obtain ⟨⟨hbrace, hescape⟩, hmore⟩ := List.forall_mem_cons.1 hrun
      have hliteral := ih hmore fun hin => hquotes (hin.trans (List.suffix_cons c run).isInfix)
      by_cases hc : c = style.quote
      · subst hc
        refine .quote htriple (fun hprefix => hquotes ?_) hliteral
        have hquotes' := quotes_prefix_of_append hfollowing hprefix
        exact (List.cons_prefix_cons.2 ⟨rfl, hquotes'⟩).isInfix
      · have hsingle : style.singleLine = false := by
          rw [singleLine, htriple, Bool.or_true]
          rfl
        refine .plain c hc hescape ?_ (fun hline => ?_) hliteral
        · rw [opener_of_not_dollar hd]
          exact hbrace
        · rw [hsingle] at hline
          cases hline

theorem text_closingBrace (hq : style.Quoted) (hd : style.dollar = false) (t : List Char) :
    style.text ('\x7d' :: t) = style.text t := by
  have hquote : '\x7d' ≠ style.quote := (hq.ne '\x7d' (by decide)).symm
  have hstop : style.stops '\x7d' = false := by
    simp [stops, hquote, opener_of_not_dollar hd]
  exact text_cons_of_plain hstop

theorem literal_doubledBraces (hd : style.dollar = false) (h : Even k) :
    style.Literal following (List.replicate k '\x7b') := by
  induction k using Nat.twoStepInduction with
  | zero => exact .nil
  | one => exact absurd h (by decide)
  | more k ih => exact .brace hd (ih (by simpa [Nat.even_add_one] using h))

/-- Backslashes and braces behind them are pairs if there is an even number of the two together. -/
theorem literal_marks (hd : style.dollar = false) (h : Even (n + k)) :
    style.Literal following (List.replicate n '\x5c' ++ List.replicate k '\x7b') := by
  induction n using Nat.twoStepInduction with
  | zero =>
      rw [Nat.zero_add] at h
      exact literal_doubledBraces hd h
  | one =>
      -- The backslash takes the first brace along.
      obtain ⟨k, rfl⟩ : ∃ k', k = k' + 1 := ⟨k - 1, by grind⟩
      exact .escape '\x7b' (literal_doubledBraces hd (by grind))
  | more n ih => exact .escape '\x5c' (ih (by grind))

end TemplateSyntax

namespace Frame

variable {style : TemplateSyntax}

/-- A specification ends in front of a quote, whatever is behind the quote. -/
theorem scan_spec_quote (hq : style.Quoted) (s : List Char) :
    scan (.spec style) (style.quote :: s) = none := by
  have hrest : style.specRest (style.quote :: s) = style.quote :: s :=
    TemplateSyntax.specRest_append (List.forall_mem_nil _) style.not_specText_quote s
  rw [scan]
  · rw [hrest, run, if_neg (Nat.lt_irrefl _)]
  · exact fun _ heq => hq.ne '\x7b' (by decide) (List.cons.inj heq).1
  · exact fun _ heq => hq.ne '\x7d' (by decide) (List.cons.inj heq).1

theorem scan_text_quote (hq : style.Quoted) (s : List Char) :
    ∃ frames, scan (.text style) (style.quote :: s) =
      some (⟨style.kind, (style.text (style.quote :: s)).2⟩, frames) := by
  have hnone : style.opener? (style.quote :: s) = none :=
    TemplateSyntax.opener?_cons_of_ne hq.ne_opener s
  have hrest : (style.text (style.quote :: s)).2 <:+ s := by
    rw [TemplateSyntax.text_quote hq]
    split
    · split
      · next hquotes => exact suffix_of_isPrefixOf? hquotes
      · exact TemplateSyntax.text_suffix style s
    · exact List.suffix_rfl
  exact ⟨_, scan_text hnone rfl (Nat.lt_succ_of_le hrest.length_le)⟩

end Frame

namespace Nesting

variable {style : TemplateSyntax} {frame : Frame} {frames : List Frame} {outer below : Nesting}
  {found : Match} {s : List Char}

theorem settle_of_scan (hcode : frame.isCode = false) (h : frame.scan s = some (found, frames)) :
    settle (frame :: outer) s = (some found, frames ++ outer) := by
  rw [settle, if_neg (by rw [hcode]; decide), h]

theorem settle_of_scan_eq_none (hcode : frame.isCode = false) (h : frame.scan s = none) :
    settle (frame :: outer) s = settle outer s := by
  rw [settle, if_neg (by rw [hcode]; decide), h]

/-- A quote ends a specification, and all that it is nested in, down to the literal text of its
string. -/
theorem settle_spec_quote (h : Stacked (.spec style :: below)) (hq : style.Quoted)
    (s : List Char) :
    ∃ nesting, settle (.spec style :: below) (style.quote :: s) =
      (some ⟨style.kind, (style.text (style.quote :: s)).2⟩, nesting) := by
  induction below with
  | nil =>
      obtain ⟨outer, hnil | hnil⟩ := (stacked_cons.1 h).1
      · cases hnil
      · cases hnil
  | cons frame outer ih =>
      obtain ⟨⟨below, hon⟩, hbelow⟩ := stacked_cons.1 h
      rw [settle_of_scan_eq_none rfl (Frame.scan_spec_quote hq s)]
      rcases hon with hon | hon
      · cases hon
        obtain ⟨frames, hscan⟩ := Frame.scan_text_quote hq s
        exact ⟨frames ++ outer, settle_of_scan rfl hscan⟩
      · cases hon
        exact ih hbelow

end Nesting

namespace Python

open Nesting TemplateSyntax

variable {state : State} {lineStart : Bool} {style : TemplateSyntax} {nesting outer below : Nesting}
  {found : Match} {kind : Kind} {c : Char} {n k : Nat}
  {text front run v w word s t body rest : List Char}

/-- Text of an f-string as it is emitted: one lexeme, or none if there is no text. -/
def textLexemes : List Char → List Lexeme
  | [] => []
  | c :: s => [⟨.string, c :: s⟩]

/-- The delimiter of a field. -/
def delimiterLexeme (c : Char) : Lexeme := ⟨.stringInterpol, [c]⟩

theorem textLexemes_of_ne_nil (h : w ≠ []) : textLexemes w = [⟨.string, w⟩] := by
  obtain ⟨c, w, rfl⟩ := List.exists_cons_of_ne_nil h
  rfl

theorem look_of_settle (h : nesting.settle s = (some found, outer)) :
    nesting.look s = (some found, outer) := by
  rw [look, h]

theorem reads_of_look (hne : word ≠ [])
    (h : state.nesting.look (word ++ rest) = (some ⟨kind, rest⟩, nesting)) :
    lexer.Reads state (word ++ rest) [⟨kind, word⟩] ⟨false, state.lineStart, nesting⟩ rest := by
  obtain ⟨c, word, rfl⟩ := List.exists_cons_of_ne_nil hne
  exact .of_step (step_of_piece h)

/-! ## Format specifications

A specification lies on the text of its string, or on another specification, and a quote decides
which of the frames takes what. Without one the specification takes all up to the brace that closes
the field. With one every specification in a row ends at the quote, and literal text goes on from
there. -/

theorem reads_colon (hstyle : FString style) (hnesting : state.nesting = .field style 0 :: below)
    (s : List Char) :
    lexer.Reads state (':' :: s) [delimiterLexeme ':']
      ⟨false, state.lineStart, .spec style :: below⟩ s := by
  refine @reads_of_look state _ _ [':'] s (List.cons_ne_nil _ _) ?_
  rw [hnesting]
  exact delimiter_colon below s hstyle.dollar

theorem reads_specText (lineStart : Bool) (below : Nesting) (hstyle : FString style)
    (hw : ∀ c ∈ w, style.SpecText c) (hc : ¬ style.SpecText c) (s : List Char) :
    lexer.Reads ⟨false, lineStart, .spec style :: below⟩ (w ++ c :: s) (textLexemes w)
      ⟨false, lineStart, .spec style :: below⟩ (c :: s) := by
  by_cases hne : w = []
  · rw [hne]
    exact .nil
  · have hscan := @Frame.scan_specRun _ w s _ hne hw hc
    rw [hstyle.kind] at hscan
    rw [textLexemes_of_ne_nil hne]
    exact reads_of_look hne (look_of_settle (settle_of_scan rfl hscan))

theorem reads_closingBrace (lineStart : Bool) (style : TemplateSyntax) (below : Nesting)
    (t : List Char) :
    lexer.Reads ⟨false, lineStart, .spec style :: below⟩ ('\x7d' :: t) [delimiterLexeme '\x7d']
      ⟨false, lineStart, below⟩ t :=
  @reads_of_look ⟨false, lineStart, .spec style :: below⟩ below _ ['\x7d'] t
    (List.cons_ne_nil _ _) rfl

/-- Behind a quote the rest of a specification is literal text, and so is what is behind it. -/
theorem exists_reads_quote (lineStart : Bool) (hstyle : FString style)
    (hstacked : Stacked (.spec style :: below))
    (htext : style.text (style.quote :: (w ++ t)) = style.text t) :
    ∃ nesting, lexer.Reads ⟨false, lineStart, .spec style :: below⟩ (style.quote :: (w ++ t))
      [⟨.string, style.quote :: (w ++ before t (style.text t).2)⟩] ⟨false, lineStart, nesting⟩
      (style.text t).2 := by
  obtain ⟨nesting, hsettle⟩ := settle_spec_quote hstacked hstyle.quoted (w ++ t)
  have hsplit : style.quote :: (w ++ t) =
      style.quote :: (w ++ before t (style.text t).2) ++ (style.text t).2 := by
    rw [List.cons_append, List.append_assoc,
      before_append_of_suffix (TemplateSyntax.text_suffix style t)]
  rw [htext, hstyle.kind, hsplit] at hsettle
  rw [hsplit]
  exact ⟨nesting, reads_of_look (List.cons_ne_nil _ _) (look_of_settle hsettle)⟩

theorem specText_of_mem (htriple : style.triple = true) (hbrace : c ≠ '\x7b' ∧ c ≠ '\x7d')
    (hquote : c ≠ style.quote) : style.SpecText c := by
  refine ⟨hbrace.1, hbrace.2, hquote, fun hline => ?_⟩
  rw [singleLine, htriple, Bool.or_true] at hline
  cases hline

/-- In triple quotes, a format specification without braces and backslashes, with a closing brace
behind it, is text up to its first quote. Without a quote in it the brace closes the field, and what
the field stands in goes on: the literal text of the string, or the specification of another field.
With one, literal text begins at the quote, and the brace is part of that. -/
theorem reads_spec (h : lexer.Visits text state (':' :: (w ++ '\x7d' :: t)))
    (hnesting : state.nesting = .field style 0 :: below) (htriple : style.triple = true)
    (hw : ∀ c ∈ w, c ≠ '\x7b' ∧ c ≠ '\x7d' ∧ c ≠ '\x5c')
    (hquotes : ¬ [style.quote, style.quote, style.quote] <:+: w) :
    (∃ outer, below = .text style :: outer ∨ below = .spec style :: outer) ∧
      (style.quote ∉ w →
        lexer.Reads state (':' :: (w ++ '\x7d' :: t))
          (delimiterLexeme ':' :: (textLexemes w ++ [delimiterLexeme '\x7d']))
          ⟨false, state.lineStart, below⟩ t) ∧
      ∀ a b, w = a ++ style.quote :: b → style.quote ∉ a →
        ∃ nesting, lexer.Reads state (':' :: (w ++ '\x7d' :: t))
          (delimiterLexeme ':' :: (textLexemes a ++
            [⟨.string, style.quote :: (b ++ '\x7d' :: before t (style.text t).2)⟩]))
          ⟨false, state.lineStart, nesting⟩ (style.text t).2 := by
  have hopen := fStrings_of_visits h
  have hstacked := (reachable_of_visits h).stacked
  rw [hnesting] at hopen hstacked
  have hstyle : FString style := (styled_cons.1 hopen).1
  obtain ⟨hon, hbelow⟩ := stacked_cons.1 hstacked
  have hspec {u : List Char} (hu : u ⊆ w) (hquote : style.quote ∉ u) :
      ∀ c ∈ u, style.SpecText c := by
    intro c hc
    obtain ⟨hopening, hclosing, -⟩ := hw c (hu hc)
    exact specText_of_mem htriple ⟨hopening, hclosing⟩ fun heq => hquote (heq ▸ hc)
  refine ⟨hon, fun hquote => ?_, fun a b hab hquote => ?_⟩
  · have htext := reads_specText state.lineStart below hstyle
      (hspec (List.Subset.refl w) hquote) (not_specText_of_brace (.inr rfl)) t
    exact (reads_colon hstyle hnesting _).append
      (htext.append (reads_closingBrace state.lineStart style below t))
  · subst hab
    have hliteral : style.Literal ('\x7d' :: t) (style.quote :: b) := by
      refine literal_of_noQuotes htriple hstyle.dollar (fun c hc => ?_) (fun hin => ?_) ?_
      · obtain ⟨hopening, -, hescape⟩ := hw c (List.mem_append_right a hc)
        exact ⟨hopening, hescape⟩
      · exact hquotes (hin.trans (List.suffix_append ..).isInfix)
      · exact fun heq => hstyle.quoted.ne '\x7d' (by decide) (Option.some.inj heq).symm
    have hpass : style.text (style.quote :: (b ++ ['\x7d'] ++ t)) = style.text t := by
      rw [List.append_assoc]
      exact (hliteral.text_append hstyle.quoted).trans
        (text_closingBrace hstyle.quoted hstyle.dollar t)
    obtain ⟨nesting, hpiece⟩ := exists_reads_quote state.lineStart hstyle
      (stacked_cons.2 ⟨hon, hbelow⟩) hpass
    have htext := reads_specText state.lineStart below hstyle
      (hspec (List.subset_append_left ..) hquote) (not_specText_quote style) (b ++ ['\x7d'] ++ t)
    have hreads := (reads_colon hstyle hnesting _).append (htext.append hpiece)
    simp only [List.append_assoc, List.cons_append, List.nil_append] at hreads ⊢
    exact ⟨nesting, hreads⟩

/-- A specification without a quote, in a field of literal text. -/
theorem reads_spec_width :
    let style : TemplateSyntax := { quote := '\x22', triple := true, kind := .string }
    let state : State := ⟨false, false, [.field style 0, .text style]⟩
    let rest := [':', '>', '4', '\x7d', '\x22', '\x22', '\x22']
    lexer.Visits ("f\x22\x22\x22\x7bx".toList ++ rest) state rest ∧
      (∃ outer, [Frame.text style] = .text style :: outer ∨ [Frame.text style] = .spec style :: outer) ∧
      lexer.Reads state rest
        [⟨.stringInterpol, [':']⟩, ⟨.string, ['>', '4']⟩, ⟨.stringInterpol, ['\x7d']⟩]
        ⟨false, false, [.text style]⟩ ['\x22', '\x22', '\x22'] := by
  intro style state rest
  have htext : lexer.Visits ("f\x22\x22\x22\x7bx".toList ++ rest) ⟨false, false, [.text style]⟩
      ('\x7b' :: 'x' :: rest) :=
    .of_step_eq .start (by decide +kernel) (by decide +kernel)
  have hfield : lexer.Visits ("f\x22\x22\x22\x7bx".toList ++ rest) state ('x' :: rest) :=
    .of_step_eq htext (by decide +kernel) (by decide +kernel)
  have hcolon : lexer.Visits ("f\x22\x22\x22\x7bx".toList ++ rest) state rest :=
    .of_step_eq hfield (by decide +kernel) (by decide +kernel)
  obtain ⟨hon, hreads, -⟩ := @reads_spec state style [.text style] _ ['>', '4']
    ['\x22', '\x22', '\x22'] hcolon rfl rfl (by decide) (by decide)
  exact ⟨hcolon, hon, hreads (by decide)⟩

/-- A quote by itself takes the brace that closes the field into literal text. -/
theorem lex_spec_quote :
    let style : TemplateSyntax := { quote := '\x22', triple := true, kind := .string }
    let state : State := ⟨false, false, [.field style 0, .text style]⟩
    let rest := [':', '\x22', '\x7d', '\x22', '\x22', '\x22']
    lexer.Visits ("f\x22\x22\x22\x7bx".toList ++ rest) state rest ∧
      ¬ [style.quote, style.quote, style.quote] <:+: ['\x22'] ∧
      lexer.lex ("f\x22\x22\x22\x7bx".toList ++ rest) =
        [⟨.string, ['f', '\x22', '\x22', '\x22']⟩, ⟨.stringInterpol, ['\x7b']⟩, ⟨.name, ['x']⟩,
          ⟨.stringInterpol, [':']⟩, ⟨.string, ['\x22', '\x7d', '\x22', '\x22', '\x22']⟩] := by
  intro style state rest
  have htext : lexer.Visits ("f\x22\x22\x22\x7bx".toList ++ rest) ⟨false, false, [.text style]⟩
      ('\x7b' :: 'x' :: rest) :=
    .of_step_eq .start (by decide +kernel) (by decide +kernel)
  have hfield : lexer.Visits ("f\x22\x22\x22\x7bx".toList ++ rest) state ('x' :: rest) :=
    .of_step_eq htext (by decide +kernel) (by decide +kernel)
  exact ⟨.of_step_eq hfield (by decide +kernel) (by decide +kernel), by decide, by decide +kernel⟩

/-! ## Braces behind backslashes

Literal text is taken apart from the front, two characters at a time where a backslash or a brace
takes the next one along. So of a run of backslashes and braces only its length is left to matter:
if it is odd, the last brace stands alone. -/

/-- A string begins with a letter or a quote. -/
theorem head_of_fString? (h : fString? (c :: s) = some (style, body)) :
    AsciiSet.whitespace.has c = false ∧ c ≠ '#' := by
  obtain ⟨hq, letters, hletters, hs⟩ := fString?_eq_some h
  cases letters with
  | nil =>
      have hc : c = style.quote := by
        rw [List.nil_append, quotes] at hs
        split at hs <;> exact (List.cons.inj hs).1
      rw [hc]
      exact ⟨hq.has_whitespace, hq.ne '#' (by decide)⟩
  | cons d letters =>
      obtain rfl : c = d := (List.cons.inj hs).1
      have hletter : c.isAlpha = true := hletters c List.mem_cons_self
      exact ⟨AsciiSet.whitespace.has_eq_false hletter (by decide), ne_of_class hletter (by decide)⟩

theorem scanToken_of_fString? (state : State) (nesting : Nesting)
    (h : fString? (c :: s) = some (style, body)) :
    scanToken state nesting c s = nesting.enter style body := by
  have hc := (head_of_fString? h).2
  have hleading : Rule.firstOf (leading state) (c :: s) = none := by
    rw [leading, Rule.firstOf_cons_of_none (scanHashbang_of_ne hc _ _),
      Rule.firstOf_cons_of_none (CommentSyntax.scan_cons_eq_none (by decide) hc), Rule.firstOf_nil]
  simp only [scanToken, hleading, h]

/-- That literal text of an f-string is next, with a text in front of it that comes with it: the
affix and the quotes where the string is opened, and nothing where it goes on. -/
inductive TextNext (state : State) (style : TemplateSyntax) (outer : Nesting) (body : List Char) :
    List Char → Prop where
  | opened {front : List Char} (hlook : state.nesting.look (front ++ body) = (none, outer))
      (hopen : fString? (front ++ body) = some (style, body)) : TextNext state style outer body front
  | resumed (hnesting : state.nesting = .text style :: outer) : TextNext state style outer body []

theorem TextNext.fString (h : TextNext state style outer body front)
    (hvisits : lexer.Visits text state s) : FString style := by
  cases h with
  | opened _ hopen => exact fString_of_fString? hopen
  | resumed hnesting =>
      have hopen := fStrings_of_visits hvisits
      rw [hnesting] at hopen
      exact (styled_cons.1 hopen).1

theorem front_ne_nil_of_fString? (h : fString? (front ++ body) = some (style, body)) :
    front ≠ [] := by
  obtain ⟨-, letters, -, hs⟩ := fString?_eq_some h
  rw [← List.append_assoc] at hs
  rw [List.append_cancel_right hs]
  have hquotes := List.length_pos_iff.1 style.length_quotes_pos
  exact fun hnil => hquotes (List.append_eq_nil_iff.1 hnil).2

theorem reads_opening (hlook : state.nesting.look (front ++ (run ++ rest)) = (none, outer))
    (hopen : fString? (front ++ (run ++ rest)) = some (style, run ++ rest))
    (hrest : (style.text (run ++ rest)).2 = rest) :
    lexer.Reads state (front ++ (run ++ rest)) [⟨.string, front ++ run⟩]
      ⟨false, false, (outer.enter style (run ++ rest)).2⟩ rest := by
  obtain ⟨c, front, rfl⟩ := List.exists_cons_of_ne_nil (front_ne_nil_of_fString? hopen)
  have hkind := (fString_of_fString? hopen).kind
  have hstep : lexer.step state c (front ++ (run ++ rest)) =
      ⟨.string, rest, ⟨false, false, (outer.enter style (run ++ rest)).2⟩⟩ := by
    refine (step_of_token hlook (head_of_fString? hopen).1).trans ?_
    rw [scanToken_of_fString? state outer hopen, enter]
    dsimp only
    rw [hkind, hrest]
  rw [← List.append_assoc] at hstep
  rw [List.cons_append, List.cons_append, ← List.append_assoc]
  exact .of_step hstep

theorem fieldOpener_eq (hstyle : FString style) : style.fieldOpener = ['\x7b'] := by
  rw [fieldOpener, hstyle.dollar]
  rfl

theorem reads_openingBrace (hstyle : FString style) (hnesting : state.nesting = .text style :: outer)
    (ht : t.head? ≠ some '\x7b') :
    lexer.Reads state ('\x7b' :: t) [delimiterLexeme '\x7b']
      ⟨false, state.lineStart, .field style 0 :: .text style :: outer⟩ t := by
  have hscan := @Frame.scan_fieldOpener style t fun _ => ht
  rw [fieldOpener_eq hstyle] at hscan
  refine @reads_of_look state _ _ ['\x7b'] t (List.cons_ne_nil _ _) ?_
  rw [hnesting]
  exact look_of_settle (settle_of_scan rfl hscan)

/-- Literal text is a lexeme up to the brace that opens a field, and the brace is the next one. -/
theorem TextNext.reads_field (h : TextNext state style outer (run ++ '\x7b' :: t) front)
    (hstyle : FString style) (hrun : style.Literal ('\x7b' :: t) run)
    (ht : t.head? ≠ some '\x7b') :
    ∃ lineStart, lexer.Reads state (front ++ (run ++ '\x7b' :: t))
      (textLexemes (front ++ run) ++ [delimiterLexeme '\x7b'])
      ⟨false, lineStart, .field style 0 :: .text style :: outer⟩ t := by
  have hfits : style.Fits t := fun _ => ht
  have hopener := fieldOpener_eq hstyle
  cases h with
  | opened hlook hopen =>
      have htext : style.text (run ++ '\x7b' :: t) = (.field, '\x7b' :: t) := by
        have hfield := text_fieldOpener hstyle.quoted hfits
        rw [hopener] at hfield
        exact (hrun.text_append hstyle.quoted).trans hfield
      have hne := front_ne_nil_of_fString? hopen
      have hreads := reads_opening hlook hopen (congrArg Prod.snd htext)
      rw [enter, htext] at hreads
      rw [textLexemes_of_ne_nil fun hnil => hne (List.append_eq_nil_iff.1 hnil).1]
      exact ⟨false, hreads.append (reads_openingBrace hstyle rfl ht)⟩
  | resumed hnesting =>
      by_cases hne : run = []
      · rw [hne]
        exact ⟨state.lineStart, reads_openingBrace hstyle hnesting ht⟩
      · have hscan := @Frame.scan_run style run t hstyle.quoted hne hfits (hopener.symm ▸ hrun)
        rw [hopener, hstyle.kind] at hscan
        have hlook : state.nesting.look (run ++ '\x7b' :: t) =
            (some ⟨.string, '\x7b' :: t⟩, .text style :: outer) := by
          rw [hnesting]
          exact look_of_settle (settle_of_scan rfl hscan)
        rw [List.nil_append, List.nil_append, textLexemes_of_ne_nil hne]
        exact ⟨state.lineStart, (reads_of_look hne hlook).append (reads_openingBrace hstyle rfl ht)⟩

/-- Literal text is one lexeme with what goes on behind it. -/
theorem TextNext.reads_text (h : TextNext state style outer (run ++ t) front)
    (hstyle : FString style) (hrun : style.Literal t run) (hne : run ≠ []) :
    ∃ state', lexer.Reads state (front ++ (run ++ t))
      [⟨.string, front ++ (run ++ before t (style.text t).2)⟩] state' (style.text t).2 := by
  have htext : style.text (run ++ t) = style.text t := hrun.text_append hstyle.quoted
  have hword : run ++ t = run ++ before t (style.text t).2 ++ (style.text t).2 := by
    rw [List.append_assoc, before_append_of_suffix (TemplateSyntax.text_suffix style t)]
  cases h with
  | opened hlook hopen =>
      rw [hword] at hlook hopen htext ⊢
      exact ⟨_, reads_opening hlook hopen (congrArg Prod.snd htext)⟩
  | resumed hnesting =>
      have hlt : (style.text t).2.length < (run ++ t).length := by
        have hle := (TemplateSyntax.text_suffix style t).length_le
        have hpos := List.length_pos_iff.2 hne
        rw [List.length_append]
        omega
      have hscan := Frame.scan_text (hrun.opener?_append hstyle.quoted hne)
        htext hlt
      have hlook := @look_of_settle _ (_ ++ outer) _ _ (settle_of_scan rfl hscan)
      rw [← hnesting, hstyle.kind, hword] at hlook
      rw [hword]
      exact ⟨_, reads_of_look (fun hnil => hne (List.append_eq_nil_iff.1 hnil).1) hlook⟩

/-- Backslashes with a run of braces behind them, and no brace behind these, open a field in literal
text if and only if there is an odd number of the two together, and the field opens at the last
brace. Otherwise all of them are text, and it goes on behind them. -/
theorem reads_marks (h : lexer.Visits text state (front ++ body))
    (hnext : TextNext state style outer body front)
    (hbody : body = v ++ (List.replicate n '\x5c' ++ (List.replicate k '\x7b' ++ t)))
    (hv : style.Literal (List.replicate n '\x5c' ++ (List.replicate k '\x7b' ++ t)) v)
    (hk : 0 < k) (ht : t.head? ≠ some '\x7b') :
    (Odd (n + k) → ∃ lineStart, lexer.Reads state (front ++ body)
      (textLexemes (front ++ (v ++ (List.replicate n '\x5c' ++ List.replicate (k - 1) '\x7b'))) ++
        [delimiterLexeme '\x7b'])
      ⟨false, lineStart, .field style 0 :: .text style :: outer⟩ t) ∧
    (Even (n + k) → ∃ state', lexer.Reads state (front ++ body)
      [⟨.string, front ++ (v ++ (List.replicate n '\x5c' ++ (List.replicate k '\x7b' ++
        before t (style.text t).2)))⟩] state' (style.text t).2) := by
  have hstyle := hnext.fString h
  obtain ⟨k, rfl⟩ : ∃ k', k = k' + 1 := ⟨k - 1, by omega⟩
  refine ⟨fun hodd => ?_, fun heven => ?_⟩
  · have hmarks := @literal_marks style ('\x7b' :: t) n k hstyle.dollar (by grind)
    have hsplit : List.replicate n '\x5c' ++ (List.replicate (k + 1) '\x7b' ++ t) =
        (List.replicate n '\x5c' ++ List.replicate k '\x7b') ++ '\x7b' :: t := by
      rw [List.replicate_succ', List.append_assoc, List.append_assoc]
      rfl
    rw [hsplit] at hbody hv
    rw [← List.append_assoc] at hbody
    subst hbody
    exact hnext.reads_field hstyle (hv.append hmarks) ht
  · have hmarks := @literal_marks style t n (k + 1) hstyle.dollar heven
    have hne : v ++ (List.replicate n '\x5c' ++ List.replicate (k + 1) '\x7b') ≠ [] := by
      simp
    rw [← List.append_assoc (List.replicate n '\x5c')] at hbody hv
    rw [← List.append_assoc] at hbody
    subst hbody
    have hreads := hnext.reads_text hstyle (hv.append hmarks) hne
    simp only [List.append_assoc] at hreads ⊢
    exact hreads

/-- Two backslashes are a pair, and the brace behind them opens a field. -/
theorem reads_marks_twoBackslashes :
    let style : TemplateSyntax := { quote := '\'', kind := .string }
    let front := ['r', 'f', '\'']
    let body := ['\x5c', '\x5c', '\x7b', 'x', '\x7d', '\'']
    TextNext {} style [] body front ∧ style.Literal body [] ∧
      ∃ lineStart, lexer.Reads {} (front ++ body)
        [⟨.string, ['r', 'f', '\'', '\x5c', '\x5c']⟩, ⟨.stringInterpol, ['\x7b']⟩]
        ⟨false, lineStart, [.field style 0, .text style]⟩ ['x', '\x7d', '\''] := by
  intro style front body
  have hnext : TextNext {} style [] body front := .opened (by decide) (by decide)
  have hmarks := @reads_marks {} style [] 2 1 (front ++ body) front [] ['x', '\x7d', '\''] body .start
    hnext rfl .nil (by decide) (by decide)
  exact ⟨hnext, .nil, hmarks.1 (by decide)⟩

/-- One backslash takes the brace along, and there is no field, although the string is raw. -/
theorem lex_hiddenField :
    let text := ['r', 'f', '\'', '\x5c', '\x7b', 'x', '\x7d', '\'']
    strings.affix? text = some ['r', 'f'] ∧ lexer.lex text = [⟨.string, text⟩] := by
  decide +kernel

end Python

end Highlight
