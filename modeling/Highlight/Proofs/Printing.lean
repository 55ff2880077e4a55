import Highlight.Proofs.Dispatch

/-!
# Printing with blanks

A printed list of lexemes is their texts with a blank between neighbours. A lexer that takes every
token in front of a gap, and a blank in front of a token, reads it back: the blank behind a token is
a gap, and so is the end of the text behind the last one. What a lexer knows between lexemes may
vary as long as it stays of one sort.
-/

namespace Highlight

/-- The lexeme of one blank. -/
def blank : Lexeme := ⟨.whitespace, [' ']⟩

/-- The texts of lexemes with one blank between neighbours. -/
def printed (lexemes : List Lexeme) : List Char :=
  [' '].intercalate (lexemes.map Lexeme.text)

theorem printed_cons_cons (t t' : Lexeme) (more : List Lexeme) :
    printed (t :: t' :: more) = t.text ++ (blank.text ++ printed (t' :: more)) := by
  simp [printed, blank, List.intercalate]

theorem exists_printed_cons (t : Lexeme) (more : List Lexeme) :
    ∃ rest, printed (t :: more) = t.text ++ rest := by
  cases more with
  | nil => exact ⟨[], by simp [printed, List.intercalate]⟩
  | cons t' more => exact ⟨_, printed_cons_cons t t' more⟩

/-- If a lexer takes every token in front of a gap, and a blank in front of a token, then it takes
apart what is printed. -/
theorem Lexer.run_printed {σ : Type} {lexer : Lexer σ} {P : σ → Prop} {Token : Lexeme → Prop}
    (hblank : ∀ s, Stops AsciiSet.whitespace.has s → lexer.Takes P blank s P)
    (htoken : ∀ t rest, Token t → Gap rest → lexer.Takes P t rest P)
    (hvisible : ∀ t, Token t → Visible t.text)
    {tokens : List Lexeme} (htokens : ∀ t ∈ tokens, Token t) {state : σ} (hstate : P state) :
    lexer.run state (printed tokens) = tokens.intersperse blank := by
  induction tokens generalizing state with
  | nil => exact run_nil lexer state
  | cons t more ih =>
      rw [List.forall_mem_cons] at htokens
      cases more with
      | nil =>
          obtain ⟨state', -, hrun⟩ := htoken t [] htokens.1 gap_nil state hstate
          have hone : printed [t] = t.text ++ [] := by
            simp [printed, List.intercalate]
          rw [hone, hrun, run_nil]
          rfl
      | cons t' more =>
          -- The blank is the gap behind this token, and the next token is where the blank stops.
          have hgap : Gap (blank.text ++ printed (t' :: more)) := gap_cons (by decide) _
          have hstop : Stops AsciiSet.whitespace.has (printed (t' :: more)) := by
            obtain ⟨rest, hrest⟩ := exists_printed_cons t' more
            rw [hrest]
            exact (hvisible t' (htokens.2 t' List.mem_cons_self)).stops_append rest
          obtain ⟨state₁, hstate₁, hrun₁⟩ := htoken t _ htokens.1 hgap state hstate
          obtain ⟨state₂, hstate₂, hrun₂⟩ := hblank _ hstop state₁ hstate₁
          rw [printed_cons_cons, hrun₁, hrun₂, ih htokens.2 hstate₂]
          rfl

/-- A lexer of rules takes apart what is printed, if its rules recognise every token and the first
rule is that for white space. -/
theorem Lexer.lex_printed_ofRules {rules : List Rule} {Token : Lexeme → Prop}
    (hrules : ∀ rule ∈ Rule.whitespace :: rules, Rule.Consumes rule)
    (htoken : ∀ t, Token t → Rule.Recognises t (Rule.firstOf (Rule.whitespace :: rules)))
    (hvisible : ∀ t, Token t → Visible t.text)
    {tokens : List Lexeme} (htokens : ∀ t ∈ tokens, Token t) :
    (ofRules (Rule.whitespace :: rules) hrules).lex (printed tokens) =
      tokens.intersperse blank := by
  refine run_printed (P := fun _ => True) (fun s hs state _ => ⟨(), trivial, ?_⟩)
    (fun t rest ht hrest state _ => ⟨(), trivial, ?_⟩) hvisible htokens trivial
  · have hspace : Rule.whitespace ([' '] ++ s) = some ⟨.whitespace, s⟩ :=
      Rule.run_append (List.cons_ne_nil _ _) (by decide) hs
    exact run_ofRules_append hrules (List.cons_ne_nil _ _) (Rule.firstOf_cons_of_some hspace)
  · exact run_ofRules_append hrules (hvisible t ht).ne_nil (htoken t ht rest hrest)

end Highlight
