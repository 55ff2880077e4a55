import Highlight.Proofs.RawTextBodies

/-!
# The grammar of tags

Markup is never in error, but what its lexemes are does depend on where they stand. A tag is one
mark, one name, and the inside up to its end, and attributes are inside of tags only. What is
between tags is of kinds that no tag has, up to white space and values in quotes. The one thing that
has no place in this is the body of a script, whose lexemes are whatever the other lexer makes of
it, and so the grammar says which stretch of the lexemes that is: the one whose text ends where the
closing tag begins.

A run that starts in content derives by an induction on what it has in front of it. A tag is taken
in one piece, since its inside leads either to the end of the text or to content again, by way of a
body or without one.
-/

namespace Highlight.Html

variable {s : List Char} {lexemes : List Lexeme}

/-- Whether a tag of that mark, name and end begins the body of a script. -/
def OpensScript (closing : Bool) (name : List Char) (empty : Bool) : Prop :=
  closing = false ∧ name.map Char.toLower = RawText.script.tag ∧ empty = false

/-- Whether lexemes are what the inside of a tag is made of, behind its name. -/
def Inside (lexemes : List Lexeme) : Prop :=
  ∀ lexeme ∈ lexemes, lexeme.kind ∈ tagKinds

/-- The lists of lexemes that are content and tags, with the bodies of scripts in between. -/
inductive Markup : List Lexeme → Prop where
  | nil : Markup []
  | piece {lexeme : Lexeme} {lexemes : List Lexeme} (h : lexeme.kind ∈ contentKinds)
      (more : Markup lexemes) :
      Markup (lexeme :: lexemes)
  /-- The text may end inside of a tag. -/
  | unended {closing : Bool} {name : List Char} {inside : List Lexeme} (h : Inside inside) :
      Markup (opening closing :: ⟨.nameTag, name⟩ :: inside)
  | tag {closing empty : Bool} {name : List Char} {inside lexemes : List Lexeme} (h : Inside inside)
      (hscript : ¬ OpensScript closing name empty) (more : Markup lexemes) :
      Markup (opening closing :: ⟨.nameTag, name⟩ :: (inside ++ ending empty :: lexemes))
  | script {name body : List Char} {inside lexemes : List Lexeme} (h : Inside inside)
      (hscript : OpensScript false name false)
      (hcuts : RawText.script.Cuts body (lexemes.flatMap Lexeme.text)) (more : Markup lexemes) :
      Markup (opening false :: ⟨.nameTag, name⟩ ::
        (inside ++ ending false :: (JavaScript.lexer.lex body ++ lexemes)))

/-! A step inside of a tag stays there or ends it, so all that is left to say is that a run does the
one until it does the other. -/

theorem inside_nil : Inside [] := List.forall_mem_nil _

theorem Inside.cons {kind : Kind} {taken : List Char} (hkind : kind ∈ tagKinds)
    (h : Inside lexemes) : Inside (⟨kind, taken⟩ :: lexemes) :=
  List.forall_mem_cons.2 ⟨hkind, h⟩

theorem exists_inside (raw : Option RawText) (valueNext : Bool) (s : List Char) :
    ∃ inside, Inside inside ∧
      (lexer.run (.tag raw valueNext) s = inside ∨
        ∃ empty rest, rest.length < s.length ∧
          lexer.run (.tag raw valueNext) s =
            inside ++ ending empty :: lexer.run (if empty then .content else .ofBody raw rest)
              rest) := by
  induction hlength : s.length using Nat.strong_induction_on generalizing valueNext s with
  | _ n ih =>
      cases s with
      | nil => exact ⟨[], inside_nil, .inl (Lexer.run_nil ..)⟩
      | cons c s =>
          have hstep : lexer.step (.tag raw valueNext) c s = stepTag raw valueNext c s := rfl
          have hsuffix := stepTag_suffix raw valueNext c s
          rw [List.length_cons] at hlength
          rcases stepTag_cases raw valueNext c s with
            ⟨kind, rest, valueNext', hkind, heq⟩ | ⟨empty, rest, htext, heq⟩
          · rw [heq] at hsuffix
            have hle : rest.length ≤ s.length := hsuffix.length_le
            obtain ⟨inside, hinside, hrun⟩ := ih rest.length (by omega) valueNext' rest rfl
            have hmore : Inside (⟨kind, before (c :: s) rest⟩ :: inside) := .cons hkind hinside
            refine ⟨_, hmore, ?_⟩
            rw [Lexer.run_cons, hstep, heq]
            rcases hrun with hrun | ⟨empty, rest', hlt, hrun⟩
            · exact .inl (congrArg _ hrun)
            · exact .inr ⟨empty, rest', by omega, congrArg _ hrun⟩
          · rw [heq] at hsuffix
            have hle : rest.length ≤ s.length := hsuffix.length_le
            refine ⟨[], inside_nil, .inr ⟨empty, rest, by omega, ?_⟩⟩
            rw [Lexer.run_cons, hstep, heq, htext, before_append]
            rfl

/-- Behind the end of a tag that opens an element. -/
theorem Markup.tag_ofBody {name : List Char} {inside : List Lexeme} (h : Inside inside)
    (hmore : ∀ rest, rest <:+ s → Markup (lexer.run .content rest)) :
    Markup (opening false :: ⟨.nameTag, name⟩ :: (inside ++ ending false ::
      lexer.run (.ofBody (RawText.ofTag? name) s) s)) := by
  cases hraw : RawText.ofTag? name with
  | none =>
      refine .tag h (fun hscript => ?_) (hmore s List.suffix_rfl)
      rw [ofTag?_eq_some_iff.2 hscript.2.1] at hraw
      cases hraw
  | some raw =>
      obtain ⟨body, rest, rfl, hcuts, hrun⟩ := exists_run_ofBody raw s
      have hrest := hmore rest (List.suffix_append body rest)
      rw [hrun]
      cases raw with
      | script =>
          refine .script h ⟨rfl, ofTag?_eq_some_iff.1 hraw, rfl⟩ ?_ hrest
          show RawText.script.Cuts body ((lexer.run .content rest).flatMap Lexeme.text)
          rw [Lexer.flatMap_text_run]
          exact hcuts
      | style =>
          refine .tag h (fun hscript => ?_) ?_
          · rw [ofTag?_eq_some_iff.2 hscript.2.1] at hraw
            cases hraw
          · cases body with
            | nil => exact hrest
            | cons b body => exact .piece (by decide : Kind.text ∈ contentKinds) hrest

/-- Behind the mark that opens a tag. -/
theorem Markup.opening_run {closing : Bool} {d : Char} {t : List Char}
    (hmore : ∀ rest : List Char, rest.length ≤ t.length → Markup (lexer.run .content rest)) :
    Markup (opening closing :: lexer.run (.tagName closing) (d :: t)) := by
  have hstep : lexer.step (.tagName closing) d t = _ := stepTagName_eq closing t
  rw [Lexer.run_cons, hstep]
  have hle := (behindWord_suffix .markupName t).length_le
  generalize behindWord .markupName t = rest at hle ⊢
  generalize before (d :: t) rest = name
  dsimp only
  obtain ⟨inside, hinside, hrun | ⟨empty, rest', hlt, hrun⟩⟩ :=
    exists_inside (if closing then none else RawText.ofTag? name) false rest
  · rw [hrun]
    exact .unended hinside
  · have hcontent (s : List Char) (h : s <:+ rest') : Markup (lexer.run .content s) :=
      hmore s (by have := h.length_le; omega)
    rw [hrun]
    cases empty
    · cases closing
      · exact .tag_ofBody hinside hcontent
      · exact .tag hinside (fun hscript => nomatch hscript.1) (hcontent rest' List.suffix_rfl)
    · exact .tag hinside (fun hscript => nomatch hscript.2.2) (hcontent rest' List.suffix_rfl)

theorem markup_run (s : List Char) : Markup (lexer.run .content s) := by
  induction hlength : s.length using Nat.strong_induction_on generalizing s with
  | _ n ih =>
      cases s with
      | nil =>
          rw [Lexer.run_nil]
          exact .nil
      | cons c s =>
          have hstep : lexer.step .content c s = stepContent c s := rfl
          have hle := (stepContent_suffix c s).length_le
          rw [List.length_cons] at hlength
          rw [Lexer.run_cons, hstep]
          rcases stepContent_cases c s with ⟨hkind, hstate⟩ | ⟨closing, d, t, htext, heq⟩
          · rw [hstate]
            exact .piece hkind (ih _ (by omega) _ rfl)
          · rw [heq] at hle
            rw [heq, htext, before_append]
            rw [List.length_cons] at hle
            exact .opening_run fun rest hrest => ih rest.length (by omega) rest rfl

/-- Every list of lexemes that a run over markup gives is content and tags. The mark of a tag has
one name behind it, behind that come white space, values, attributes and operators up to the one end
of the tag or that of the text, and none of this but white space and values is anywhere else. There
is no error. Only in the bodies of scripts are the lexemes those of another lexer. -/
theorem lexRange_markup (text : List Char) (range : ByteRange) :
    Markup (Language.html.lexRange text range) := by
  rw [Language.lexRange_eq_lex]
  exact markup_run _

end Highlight.Html
