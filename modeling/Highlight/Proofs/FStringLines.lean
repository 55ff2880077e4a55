import Highlight.Proofs.OpenStrings
import Highlight.Proofs.Runs
import Highlight.Proofs.TemplateNesting

/-!
# Fields of f-strings and the ends of lines

An f-string between single quotes ends with its line, and so does a field of it. The literal text of
the one sees to this where it meets the newline. The code of the other does not meet it alone: a
newline comes in a run of white space, which is one lexeme, and the field has a look at the run in
front of that. If it finds the newline, all that may not span lines is left, down to an f-string
that may, or to none.

The look and the run do not agree on what white space is. The look does not take place in front of a
vertical tab or a form feed, and it does not go past a vertical tab. So a newline can be hidden from
it, and this module says when: if the run begins with a form feed, or has a vertical tab in front of
its first newline. Then the field goes on in the next line. In front of every other run that has a
newline it is left.
-/

namespace Highlight

namespace Nesting

variable {nesting : Nesting} {c : Char} {s : List Char}

theorem has_whitespace_iff :
    AsciiSet.whitespace.has c = true ↔ c = '\x0b' ∨ blanks.has c = true := by
  have hspace : ∀ c ∈ AsciiSet.whitespace.members, c = '\x0b' ∨ blanks.has c = true := by decide
  have hblank : ∀ c ∈ blanks.members, AsciiSet.whitespace.has c = true := by decide
  constructor
  · exact fun h => hspace c (AsciiSet.mem_members.2 h)
  · rintro (rfl | h)
    · rfl
    · exact hblank c (AsciiSet.mem_members.2 h)

/-- The first newline of a run of white space is found if no vertical tab is in front of it. -/
theorem crossesLine_iff (h : '\n' ∈ s.takeWhile AsciiSet.whitespace.has) :
    crossesLine s = true ↔
      '\x0b' ∉ (s.takeWhile AsciiSet.whitespace.has).takeWhile (· != '\n') := by
  induction s with
  | nil => cases h
  | cons c s ih =>
      by_cases hspace : AsciiSet.whitespace.has c = true
      · rw [List.takeWhile_cons_of_pos hspace] at h ⊢
        rcases has_whitespace_iff.1 hspace with rfl | hblank
        · have hstop : crossesLine ('\x0b' :: s) = false := rfl
          have hfirst : '\x0b' ∈ ('\x0b' :: s.takeWhile AsciiSet.whitespace.has).takeWhile
              (· != '\n') :=
            List.mem_cons_self
          rw [hstop]
          exact ⟨nofun, fun hnot => absurd hfirst hnot⟩
        · by_cases hc : c = '\n'
          · subst hc
            rw [crossesLine_cons, hblank]
            exact ⟨fun _ => List.not_mem_nil, fun _ => rfl⟩
          · have hne : (c != '\n') = true := by simpa using hc
            have htab : '\x0b' ≠ c := by
              rintro rfl
              exact absurd hblank (by decide)
            have hmore : '\n' ∈ s.takeWhile AsciiSet.whitespace.has :=
              (List.mem_cons.1 h).resolve_left fun heq => hc heq.symm
            rw [crossesLine_cons, hblank, Bool.true_and, beq_eq_false_iff_ne.2 hc, Bool.false_or,
              ih hmore, List.takeWhile_cons_of_pos (p := (· != '\n')) hne, List.mem_cons, not_or]
            exact ⟨fun hnot => ⟨htab, hnot⟩, And.right⟩
      · rw [List.takeWhile_cons_of_neg hspace] at h
        cases h

/-- Whether the innermost open string is between single quotes. -/
def OnLine (nesting : Nesting) : Prop :=
  ∃ frame ∈ nesting.head?, frame.style.triple = false

theorem not_onLine_nil : ¬ OnLine [] := by
  rintro ⟨frame, hframe, -⟩
  cases hframe

theorem onLine_cons {frame : Frame} {outer : Nesting} :
    OnLine (frame :: outer) ↔ frame.style.triple = false := by
  constructor
  · rintro ⟨f, hf, h⟩
    cases hf
    exact h
  · intro h
    exact ⟨frame, rfl, h⟩

theorem not_onLine_leaveLine (h : Python.FStrings nesting) : ¬ OnLine nesting.leaveLine := by
  have hstays := h.of_suffix (leaveLine_suffix nesting)
  cases hleave : nesting.leaveLine with
  | nil => exact not_onLine_nil
  | cons frame outer =>
      rw [hleave] at hstays
      have hline := List.head?_dropWhile_not (fun frame : Frame => frame.style.singleLine) nesting
      rw [← leaveLine, hleave] at hline
      have hline : frame.style.singleLine = false := hline
      rw [onLine_cons]
      intro htriple
      rw [TemplateSyntax.singleLine, (styled_cons.1 hstays).1.multiline, htriple] at hline
      cases hline

theorem delimiter_blank (hc : c = ' ' ∨ c = '\t' ∨ c = '\x0d' ∨ c = '\n') (style : TemplateSyntax)
    (depth : Nat) (outer : Nesting) (s : List Char) :
    delimiter (.field style depth :: outer) (c :: s) =
      if style.singleLine = true ∧ crossesLine (c :: s) = true then
        (none, leaveLine (.field style depth :: outer))
      else (none, .field style depth :: outer) := by
  rcases hc with rfl | rfl | rfl | rfl <;> rfl

/-- The look does not take place. -/
theorem delimiter_unseen (hc : c = '\x0b' ∨ c = '\x0c') (style : TemplateSyntax) (depth : Nat)
    (outer : Nesting) (s : List Char) :
    delimiter (.field style depth :: outer) (c :: s) = (none, .field style depth :: outer) := by
  rcases hc with rfl | rfl <;> rfl

end Nesting

namespace Python

open Nesting

variable {state : State} {c : Char} {text s : List Char}

/-- Whether a field does not see the first newline of a run of white space. -/
def HidesNewline (space : List Char) : Prop :=
  space.head? = some '\x0c' ∨ '\x0b' ∈ space.takeWhile (· != '\n')

instance (space : List Char) : Decidable (HidesNewline space) :=
  inferInstanceAs (Decidable (_ ∨ _))

theorem FString.singleLine {style : TemplateSyntax} (h : FString style)
    (htriple : style.triple = false) : style.singleLine = true := by
  rw [TemplateSyntax.singleLine, h.multiline, htriple]
  rfl

/-- A field in front of white space with a newline in it. -/
theorem onLine_delimiter {style : TemplateSyntax} {depth : Nat} {outer : Nesting}
    (h : FStrings (.field style depth :: outer)) (hc : AsciiSet.whitespace.has c = true)
    (hline : '\n' ∈ (c :: s).takeWhile AsciiSet.whitespace.has) :
    OnLine (delimiter (.field style depth :: outer) (c :: s)).2 ↔
      OnLine (.field style depth :: outer) ∧
        HidesNewline ((c :: s).takeWhile AsciiSet.whitespace.has) := by
  have hcross := crossesLine_iff hline
  have hhead : ((c :: s).takeWhile AsciiSet.whitespace.has).head? = some c := by
    rw [List.takeWhile_cons_of_pos hc, List.head?_cons]
  have hmembers : ∀ c ∈ AsciiSet.whitespace.members,
      (c = ' ' ∨ c = '\t' ∨ c = '\x0d' ∨ c = '\n') ∨ c = '\x0b' ∨ c = '\x0c' := by decide
  rcases hmembers c (AsciiSet.mem_members.2 hc) with hblank | hunseen
  · have hfeed : ((c :: s).takeWhile AsciiSet.whitespace.has).head? ≠ some '\x0c' := by
      rw [hhead]
      rcases hblank with rfl | rfl | rfl | rfl <;> decide
    rw [delimiter_blank hblank]
    split
    · next hleave =>
        have hseen : ¬ HidesNewline ((c :: s).takeWhile AsciiSet.whitespace.has) :=
          not_or.2 ⟨hfeed, hcross.1 hleave.2⟩
        exact ⟨fun hon => absurd hon (not_onLine_leaveLine h), fun hon => absurd hon.2 hseen⟩
    · next hstay =>
        refine ⟨fun hon => ⟨hon, .inr ?_⟩, And.left⟩
        have hsingle := (styled_cons.1 h).1.singleLine (onLine_cons.1 hon)
        exact not_not.1 fun htab => hstay ⟨hsingle, hcross.2 htab⟩
  · have hhidden : HidesNewline ((c :: s).takeWhile AsciiSet.whitespace.has) := by
      rcases hunseen with rfl | rfl
      · rw [List.takeWhile_cons_of_pos hc]
        exact .inr List.mem_cons_self
      · exact .inl hhead
    rw [delimiter_unseen hunseen]
    exact (and_iff_left hhidden).symm

/-- In code, behind white space with a newline in it, an f-string between single quotes is the
innermost open string if it was so in front of it and the newline was hidden from the field, and not
else. -/
theorem onLine_behind_newline (h : lexer.Visits text state (c :: s))
    (hkind : (lexer.step state c s).kind = .whitespace)
    (hline : '\n' ∈ before (c :: s) (lexer.step state c s).rest) :
    OnLine (lexer.step state c s).state.nesting ↔
      OnLine (state.nesting.settle (c :: s)).2 ∧
        HidesNewline (before (c :: s) (lexer.step state c s).rest) := by
  have hopen := fStrings_of_visits h
  obtain ⟨hc, nesting, hlook⟩ := exists_look_of_kind hopen hkind
  have hstep : lexer.step state c s = _ := step_of_whitespace hlook hc
  rw [before_step_of_whitespace hlook hc] at hline ⊢
  rw [hstep]
  show OnLine nesting ↔ _
  have hsettle := hopen.settle (c :: s)
  rcases look_cases state.nesting (c :: s) with ⟨found, inner, -, heq⟩ | ⟨inner, heq, hinner⟩
  · rw [heq] at hlook
    cases hlook
  · have hin := ((reachable_of_visits h).of_settle_none heq).2
    rw [heq] at hsettle ⊢
    have hnesting : (inner.delimiter (c :: s)).2 = nesting :=
      congrArg Prod.snd (hinner.symm.trans hlook)
    rw [← hnesting]
    cases inner with
    | nil =>
        exact ⟨fun hon => absurd hon not_onLine_nil, fun hon => absurd hon.1 not_onLine_nil⟩
    | cons frame outer =>
        cases frame with
        | text style => cases hin
        | spec style => cases hin
        | field style depth => exact onLine_delimiter hsettle hc hline

/-- A tab in front of the newline does not hide it, and the string is left. -/
theorem onLine_behind_newline_tab :
    let style : TemplateSyntax := { quote := '\'', kind := .string }
    let state : State := ⟨false, false, [.field style 0, .text style]⟩
    lexer.Visits "f'\x7b\t\n\x7d".toList state ['\t', '\n', '\x7d'] ∧
      (lexer.step state '\t' ['\n', '\x7d']).kind = .whitespace ∧
      '\n' ∈ before ['\t', '\n', '\x7d'] (lexer.step state '\t' ['\n', '\x7d']).rest ∧
      ¬ OnLine (lexer.step state '\t' ['\n', '\x7d']).state.nesting := by
  intro style state
  have hquote : lexer.Visits "f'\x7b\t\n\x7d".toList ⟨false, false, [.text style]⟩
      ['\x7b', '\t', '\n', '\x7d'] :=
    .of_step_eq .start (by decide +kernel) (by decide +kernel)
  have hfield : lexer.Visits "f'\x7b\t\n\x7d".toList state ['\t', '\n', '\x7d'] :=
    .of_step_eq hquote (by decide +kernel) (by decide +kernel)
  have hkind : (lexer.step state '\t' ['\n', '\x7d']).kind = .whitespace := by decide
  have hline : '\n' ∈ before ['\t', '\n', '\x7d'] (lexer.step state '\t' ['\n', '\x7d']).rest := by
    decide
  refine ⟨hfield, hkind, hline, fun hon => ?_⟩
  have hseen : ¬ HidesNewline ['\t', '\n'] := by decide
  exact hseen ((onLine_behind_newline hfield hkind hline).1 hon).2

/-- A form feed does: the brace in the next line closes the field in this one. -/
theorem onLine_behind_formFeed :
    let style : TemplateSyntax := { quote := '\'', kind := .string }
    let state : State := ⟨false, false, [.field style 0, .text style]⟩
    lexer.Visits "f'\x7b\x0c\n\x7d".toList state ['\x0c', '\n', '\x7d'] ∧
      (lexer.step state '\x0c' ['\n', '\x7d']).kind = .whitespace ∧
      '\n' ∈ before ['\x0c', '\n', '\x7d'] (lexer.step state '\x0c' ['\n', '\x7d']).rest ∧
      OnLine (lexer.step state '\x0c' ['\n', '\x7d']).state.nesting ∧
      lexer.lex "f'\x7b\x0c\n\x7d".toList =
        [⟨.string, ['f', '\'']⟩, ⟨.stringInterpol, ['\x7b']⟩, ⟨.whitespace, ['\x0c', '\n']⟩,
          ⟨.stringInterpol, ['\x7d']⟩] := by
  intro style state
  have hquote : lexer.Visits "f'\x7b\x0c\n\x7d".toList ⟨false, false, [.text style]⟩
      ['\x7b', '\x0c', '\n', '\x7d'] :=
    .of_step_eq .start (by decide +kernel) (by decide +kernel)
  have hfield : lexer.Visits "f'\x7b\x0c\n\x7d".toList state ['\x0c', '\n', '\x7d'] :=
    .of_step_eq hquote (by decide +kernel) (by decide +kernel)
  have hnesting : (lexer.step state '\x0c' ['\n', '\x7d']).state.nesting = state.nesting := by
    decide
  refine ⟨hfield, by decide, by decide, ?_, by decide +kernel⟩
  rw [hnesting]
  exact onLine_cons.2 rfl
end Python

end Highlight
