import Highlight.Proofs.BlockStarts
import Highlight.Proofs.OpenStrings
import Highlight.Proofs.RawTextBodies
import Highlight.Proofs.StringLines

/-!
# White space is read to its end

A lexeme of white space holds nothing else, and it cuts no line break in two: where a carriage
return is the last of it, no newline comes next. The latter is so because white space is read in
runs, and a newline goes on with any run that a carriage return is part of. Where newlines are
lexemes of their own, the others hold spaces and tabs only.

In most languages one rule reads white space and no other rule gives a lexeme of that kind. In a
string with embedded code the delimiters and the text are of other kinds, so the rule is asked there
as well. The body of a script is read apart from what is behind it, and there a run may end before
its time. But it is a closing tag that ends the body, and that begins with no newline.
-/

namespace Highlight

variable {set : AsciiSet} {p : Char → Bool} {taken rest text : List Char}
  {front back : List Lexeme} {lexeme : Lexeme}

/-- White space that was taken off the front of a text, with no line break cut in two. -/
structure Space (taken rest : List Char) : Prop where
  blank : Blank taken
  uncut : taken.getLast? = some '\r' → rest.head? ≠ some '\n'

theorem Space.of_suffix {taken' : List Char} (h : Space taken rest) (hs : taken' <:+ taken) :
    Space taken' rest := by
  refine ⟨h.blank.of_suffix hs, fun hlast => h.uncut ?_⟩
  obtain ⟨front, rfl⟩ := hs
  obtain ⟨more, rfl⟩ := List.getLast?_eq_some_iff.1 hlast
  exact List.getLast?_eq_some_iff.2 ⟨front ++ more, (List.append_assoc ..).symm⟩

theorem space_of_stops (hblank : Blank taken) (hstop : Stops p rest) (hp : p '\n' = true) :
    Space taken rest := by
  refine ⟨hblank, fun _ hhead => ?_⟩
  rw [hstop '\n' hhead] at hp
  cases hp

theorem space_of_notMem (hblank : Blank taken) (hreturn : '\r' ∉ taken) : Space taken rest :=
  ⟨hblank, fun hlast => absurd (List.mem_of_getLast? hlast) hreturn⟩

/-- Whether a class has white space only, newlines included. -/
structure AsciiSet.Spaces (set : AsciiSet) : Prop where
  blank : ∀ c ∈ set.members, AsciiSet.whitespace.has c = true
  newline : set.has '\n' = true

theorem space_takeWhile (h : set.Spaces) (s : List Char) :
    Space (s.takeWhile set.has) (s.dropWhile set.has) :=
  space_of_stops (fun c hc => h.blank c (AsciiSet.mem_members.2 (List.mem_takeWhile_imp hc)))
    (.dropWhile set.has s) h.newline

theorem AsciiSet.spaces_whitespace : AsciiSet.whitespace.Spaces :=
  ⟨by decide, by decide⟩

namespace Rule

variable {rule : Rule} {rules : List Rule} {kinds : List Kind}

/-- Whether all white space that the rule recognises is read to its end. -/
def Spaces (rule : Rule) : Prop :=
  ∀ (s : List Char) (r : Match), rule s = some r → r.kind = .whitespace →
    Space (before s r.rest) r.rest

theorem spaces_run (h : set.Spaces) : Spaces (run .whitespace set) := by
  intro s r hr _
  cases s with
  | nil => cases hr
  | cons c s =>
      simp only [run] at hr
      split at hr
      · next hc =>
          cases hr
          rw [← List.dropWhile_cons_of_pos hc, before_dropWhile]
          exact space_takeWhile h (c :: s)
      · cases hr

theorem Gives.spaces (h : rule.Gives kinds) (hnot : .whitespace ∉ kinds) : rule.Spaces :=
  fun s r hr hkind => absurd (hkind ▸ h s r hr) hnot

theorem spaces_firstOf (h : ∀ rule ∈ rules, Spaces rule) : Spaces (firstOf rules) := by
  intro s r hr
  obtain ⟨rule, hmem, hrule⟩ := List.exists_of_findSome?_eq_some hr
  exact h rule hmem s r hrule

theorem spaces_whitespace : Spaces Rule.whitespace :=
  spaces_run AsciiSet.spaces_whitespace

end Rule

namespace Lexer

variable {σ : Type} {lexer : Lexer σ}

/-- Whether all white space that the lexer comes upon is read to its end. -/
def Spaces (lexer : Lexer σ) : Prop :=
  ∀ (text : List Char) (state : σ) (c : Char) (s : List Char), lexer.Visits text state (c :: s) →
    (lexer.step state c s).kind = .whitespace →
      Space (before (c :: s) (lexer.step state c s).rest) (lexer.step state c s).rest

theorem Spaces.space (h : lexer.Spaces) (hlex : lexer.lex text = front ++ lexeme :: back)
    (hkind : lexeme.kind = .whitespace) : Space lexeme.text (back.flatMap Lexeme.text) := by
  obtain ⟨state, c, s, hvisits, -, rfl, hrun⟩ := lexer.exists_visits hlex
  rw [← hrun, flatMap_text_run]
  exact h text state c s hvisits hkind

theorem scanOr_spaces {fallback : Kind} {rule : Rule} (h : rule.Spaces)
    (hfallback : fallback ≠ .whitespace) {c : Char} {s : List Char}
    (hkind : (scanOr fallback rule c s).kind = .whitespace) :
    Space (before (c :: s) (scanOr fallback rule c s).rest) (scanOr fallback rule c s).rest := by
  unfold scanOr at hkind ⊢
  cases hfound : rule (c :: s) with
  | none =>
      rw [hfound] at hkind
      exact absurd hkind hfallback
  | some found =>
      rw [hfound] at hkind
      exact h (c :: s) found hfound hkind

theorem spaces_ofRules {rules : List Rule} (hconsumes : ∀ rule ∈ rules, Rule.Consumes rule)
    (h : ∀ rule ∈ rules, Rule.Spaces rule) : (ofRules rules hconsumes).Spaces :=
  fun _ _ _ _ _ hkind => scanOr_spaces (Rule.spaces_firstOf h) (by decide) hkind

end Lexer

theorem Json.spaces_lexer : Json.lexer.Spaces := by
  refine Lexer.spaces_ofRules Json.consumes_rules fun rule hmem => ?_
  simp only [Json.rules, List.mem_cons, List.not_mem_nil, or_false] at hmem
  rcases hmem with rfl | rfl | rfl | rfl | rfl
  · exact Rule.spaces_run ⟨by decide, by decide⟩
  · exact Json.gives_scanString.spaces (by decide)
  · exact Json.gives_scanNumber.spaces (by decide)
  · exact Json.gives_scanConstant.spaces (by decide)
  · exact (Rule.gives_single _ _).spaces (by decide)

theorem Go.gives_scanRune : Rule.Gives Go.scanRune [.stringChar] := by
  intro s r hr
  unfold scanRune at hr
  repeat' split at hr
  all_goals cases hr
  exact List.mem_singleton_self _

theorem Go.spaces_lexer : Go.lexer.Spaces := by
  refine Lexer.spaces_ofRules Go.consumes_rules fun rule hmem => ?_
  simp only [Go.rules, List.mem_cons, List.not_mem_nil, or_false] at hmem
  rcases hmem with rfl | rfl | rfl | rfl | rfl | rfl | rfl | rfl
  · exact Rule.spaces_whitespace
  · exact (CommentSyntax.gives_scan _).spaces (by decide)
  · exact (StringSyntax.gives_scan _).spaces (by decide)
  · exact Go.gives_scanRune.spaces (by decide)
  · exact (NumberSyntax.gives_scan _).spaces (by decide)
  · exact (Vocabulary.gives_scan _).spaces (by decide)
  · exact (OperatorSyntax.gives_scan _).spaces (by decide)
  · exact (Rule.gives_single _ _).spaces (by decide)

namespace Rust

theorem gives_scanQuote : Rule.Gives scanQuote [.stringChar, .nameLabel, .error] := by
  intro s r hr
  unfold scanQuote at hr
  repeat' split at hr
  all_goals cases hr
  · exact List.mem_cons_self
  · exact List.mem_cons_of_mem _ List.mem_cons_self
  · exact List.mem_cons_of_mem _ (List.mem_cons_of_mem _ List.mem_cons_self)

theorem gives_scanByte : Rule.Gives scanByte [.stringChar] := by
  intro s r hr
  unfold scanByte at hr
  split at hr
  · cases hr
    exact List.mem_singleton_self _
  · cases hr

theorem gives_scanRawIdentifier : Rule.Gives scanRawIdentifier [.name] := by
  intro s r hr
  unfold scanRawIdentifier at hr
  split at hr
  · obtain ⟨rest, -, rfl⟩ := Option.map_eq_some_iff.1 hr
    exact List.mem_singleton_self _
  · cases hr

theorem gives_scanAttribute : Rule.Gives scanAttribute [.nameDecorator] := by
  intro s r hr
  unfold scanAttribute at hr
  repeat' split at hr
  all_goals cases hr
  exact List.mem_singleton_self _

theorem gives_scanWord :
    Rule.Gives scanWord (.nameFunctionMagic :: .name :: vocabulary.map Prod.fst) := by
  intro s r hr
  have hkind : vocabulary.kind (identifierOf s) ∈
      .nameFunctionMagic :: .name :: vocabulary.map Prod.fst :=
    List.mem_cons_of_mem _ (vocabulary.kind_mem _)
  simp only [scanWord] at hr
  repeat' split at hr
  all_goals cases hr
  · exact List.mem_cons_self
  · exact hkind
  · exact hkind

theorem spaces_lexer : lexer.Spaces := by
  refine Lexer.spaces_ofRules consumes_rules fun rule hmem => ?_
  simp only [rules, List.mem_cons, List.not_mem_nil, or_false] at hmem
  rcases hmem with rfl | rfl | rfl | rfl | rfl | rfl | rfl | rfl | rfl | rfl | rfl
  · exact Rule.spaces_whitespace
  · exact (CommentSyntax.gives_scan _).spaces (by decide)
  · exact gives_scanQuote.spaces (by decide)
  · exact gives_scanByte.spaces (by decide)
  · exact (StringSyntax.gives_scan _).spaces (by decide)
  · exact gives_scanRawIdentifier.spaces (by decide)
  · exact (NumberSyntax.gives_scan _).spaces (by decide)
  · exact gives_scanAttribute.spaces (by decide)
  · exact gives_scanWord.spaces (by decide)
  · exact (OperatorSyntax.gives_scan _).spaces (by decide)
  · exact (Rule.gives_single _ _).spaces (by decide)

end Rust

/-! ## Languages with context

In JavaScript and Python the nesting gives pieces and delimiters, none of which is white space, so
that comes from code alone. In markup the body of a script is cut off from what is behind it, and
`Within` says what that is: its closing tag, which begins with no newline, or nothing. -/

theorem Python.spaces_lexer : Python.lexer.Spaces := by
  intro text state c s hvisits hkind
  have hkind : (Python.step state c s).kind = .whitespace := hkind
  obtain ⟨hc, nesting, hlook⟩ := exists_look_of_kind (fStrings_of_visits hvisits) hkind
  have hrest : (Python.lexer.step state c s).rest = (c :: s).dropWhile AsciiSet.whitespace.has := by
    rw [List.dropWhile_cons_of_pos hc]
    exact congrArg Step.rest (step_of_whitespace hlook hc)
  rw [before_step_of_whitespace hlook hc, hrest]
  exact space_takeWhile AsciiSet.spaces_whitespace (c :: s)

namespace JavaScript

theorem spaces_leading (state : State) : Rule.Spaces (Rule.firstOf (leading state)) := by
  refine Rule.spaces_firstOf fun rule hmem => ?_
  simp only [leading, List.mem_cons, List.not_mem_nil, or_false] at hmem
  rcases hmem with rfl | rfl | rfl | rfl
  · exact Rule.spaces_whitespace
  · exact (gives_scanHashbang _).spaces (by decide)
  · exact (CommentSyntax.gives_scan _).spaces (by decide)
  · exact (gives_scanRegex _).spaces (by decide)

theorem space_scanCode (state : State) (nesting : Nesting) (c : Char) (s : List Char) :
    (scanCode state nesting c s).1.kind = .whitespace →
      Space (before (c :: s) (scanCode state nesting c s).1.rest)
        (scanCode state nesting c s).1.rest := by
  unfold scanCode
  split
  · next found hfound => exact spaces_leading state _ _ hfound
  · split
    · exact nofun
    · exact Lexer.scanOr_spaces (gives_trailing.spaces (by decide)) (by decide)

theorem space_step {state : State} {c : Char} {s : List Char} (h : Templated state.nesting)
    (hkind : (step state c s).kind = .whitespace) :
    Space (before (c :: s) (step state c s).rest) (step state c s).rest := by
  have hkind : (scan state c s).1.kind = .whitespace := hkind
  show Space (before (c :: s) (scan state c s).1.rest) (scan state c s).1.rest
  rw [scan_eq_look] at hkind ⊢
  cases hlook : state.nesting.look (c :: s) with
  | mk found nesting =>
      rw [hlook] at hkind
      cases found with
      | none => exact space_scanCode state nesting c s hkind
      | some found =>
          have hkind : found.kind = .whitespace := hkind
          rcases h.kind_look hlook with heq | ⟨style, rfl, heq⟩
          · rw [heq] at hkind
            cases hkind
          · rw [heq] at hkind
            cases hkind

theorem templated_of_visits {state : State} {s : List Char} (h : lexer.Visits text state s) :
    Templated state.nesting := by
  induction h with
  | start => exact Nesting.styled_nil
  | step h ih => exact (ih.step _ _).2

theorem spaces_lexer : lexer.Spaces :=
  fun _ _ _ _ hvisits hkind => space_step (templated_of_visits hvisits) hkind

end JavaScript

namespace Html

variable {state : State} {c : Char} {s : List Char}

/-- Whether the body of a script that is being read is at the front of a text, with its closing tag
or nothing behind it. -/
def Within (state : State) (s : List Char) : Prop :=
  ∀ js body, state = .script js body →
    ∃ rest, s = body ++ rest ∧ (rest = [] ∨ startsIgnoringCase RawText.script.closing rest = true)

theorem within_ofBody (raw : Option RawText) (s : List Char) : Within (.ofBody raw s) s := by
  intro js body heq
  match raw with
  | none => cases heq
  | some .style => cases heq
  | some .script =>
      cases heq
      obtain ⟨rest, hsplit, hcuts⟩ := RawText.script.exists_cuts s
      exact ⟨rest, hsplit, hcuts.closed⟩

theorem within_content (s : List Char) : Within .content s :=
  fun _ _ heq => by cases heq

theorem within_stepContent (c : Char) (s : List Char) :
    Within (stepContent c s).state (stepContent c s).rest := by
  intro js body heq
  rcases stepContent_cases c s with ⟨-, hcontent⟩ | ⟨closing, d, t, -, hopen⟩
  · rw [hcontent] at heq
    cases heq
  · rw [hopen] at heq
    cases heq

theorem Within.step (h : Within state (c :: s)) :
    Within (lexer.step state c s).state (lexer.step state c s).rest := by
  match state with
  | .content => exact within_stepContent c s
  | .tagName closing => exact fun _ _ heq => by cases heq
  | .tag raw valueNext =>
      show Within (stepTag raw valueNext c s).state (stepTag raw valueNext c s).rest
      rcases stepTag_cases raw valueNext c s with
        ⟨kind, rest, valueNext', -, heq⟩ | ⟨empty, rest, -, heq⟩
      · rw [heq]
        exact fun _ _ heq => by cases heq
      · rw [heq]
        cases empty
        · exact within_ofBody raw rest
        · exact within_content rest
  | .script js [] => exact within_stepContent c s
  | .script js (b :: body) =>
      obtain ⟨rest, hsplit, hclosed⟩ := h js (b :: body) rfl
      rw [List.cons_append] at hsplit
      obtain ⟨rfl, rfl⟩ := List.cons.inj hsplit
      rw [step_script]
      intro js' body' heq
      cases heq
      exact ⟨rest, rfl, hclosed⟩
  | .style [] => exact within_stepContent c s
  | .style (b :: body) => exact fun _ _ heq => by cases heq

theorem within_of_visits (h : lexer.Visits text state s) : Within state s := by
  induction h with
  | start => exact within_content _
  | step h ih => exact ih.step

theorem space_stepContent (c : Char) (s : List Char) :
    (stepContent c s).kind = .whitespace →
      Space (before (c :: s) (stepContent c s).rest) (stepContent c s).rest := by
  unfold stepContent
  split
  · next found hfound => exact gives_contentRules.spaces (by decide) _ _ hfound
  · split
    · rcases stepTagOpen_cases s with ⟨rest, heq⟩ | ⟨closing, d, t, -, heq⟩
      · rw [heq]
        exact nofun
      · rw [heq]
        exact nofun
    · intro hkind
      dsimp only [scanText] at hkind ⊢
      split at hkind
      · next hall =>
          rw [drop_length_takeWhile, before_cons_dropWhile]
          exact space_of_stops (List.all_eq_true.1 hall) (.dropWhile _ s) (by decide)
      · cases hkind

theorem space_stepTag (raw : Option RawText) (valueNext : Bool) (c : Char) (s : List Char) :
    (stepTag raw valueNext c s).kind = .whitespace →
      Space (before (c :: s) (stepTag raw valueNext c s).rest)
        (stepTag raw valueNext c s).rest := by
  unfold stepTag
  by_cases hc : AsciiSet.whitespace.has c = true
  · rw [if_pos hc]
    intro _
    dsimp only
    rw [← List.dropWhile_cons_of_pos hc, before_dropWhile]
    exact space_takeWhile AsciiSet.spaces_whitespace (c :: s)
  · rw [if_neg hc]
    repeat' split
    all_goals exact nofun

/-- Behind a body there is a closing tag, so what is read to the end of the body is read to its
end. -/
theorem space_append {taken rest more : List Char} (h : Space taken rest)
    (hclosed : more = [] ∨ startsIgnoringCase RawText.script.closing more = true) :
    Space taken (rest ++ more) := by
  refine ⟨h.blank, fun hlast hhead => ?_⟩
  cases rest with
  | cons c rest => exact h.uncut hlast hhead
  | nil =>
      rw [List.nil_append] at hhead
      obtain ⟨t, rfl⟩ := List.head?_eq_some_iff.1 hhead
      rcases hclosed with hnil | hstart
      · cases hnil
      · have hstart : ('<'.toLower == '\n'.toLower && _) = true := hstart
        rw [Bool.and_eq_true] at hstart
        exact absurd hstart.1 (by decide)

theorem spaces_lexer : lexer.Spaces := by
  intro text state c s hvisits hkind
  match state with
  | .content => exact space_stepContent c s hkind
  | .tagName closing => cases hkind
  | .tag raw valueNext => exact space_stepTag raw valueNext c s hkind
  | .script js [] => exact space_stepContent c s hkind
  | .script js (b :: body) =>
      obtain ⟨rest, hsplit, hclosed⟩ := within_of_visits hvisits js (b :: body) rfl
      rw [List.cons_append] at hsplit
      obtain ⟨rfl, rfl⟩ := List.cons.inj hsplit
      have hplain := plain_of_visits hvisits js _ rfl
      rw [step_script] at hkind ⊢
      have hsuffix := JavaScript.lexer.step_suffix_cons js c body
      have htext := before_append_append hsuffix rest
      rw [List.cons_append] at htext
      rw [htext]
      exact space_append (JavaScript.space_step hplain hkind) hclosed
  | .style [] => exact space_stepContent c s hkind
  | .style (b :: body) => cases hkind

end Html

theorem Markdown.spaces_lexer : Markdown.lexer.Spaces := by
  intro text lineStart c s _ hkind
  have hkind : (Markdown.step lineStart c s).kind = .whitespace := hkind
  show Space (before (c :: s) (Markdown.step lineStart c s).rest) (Markdown.step lineStart c s).rest
  rcases Markdown.step_cases lineStart c s with
    ⟨rfl, hstep⟩ | ⟨rest, hstep, hblanks⟩ | ⟨kind, rest, hstep, hmem, -⟩
  · rw [hstep]
    have htext : before ('\n' :: s) s = ['\n'] := before_append ['\n'] s
    rw [htext]
    exact space_of_notMem (List.forall_mem_singleton.2 (by decide)) (by decide)
  · rw [hstep]
    have hsub : ∀ d ∈ Markdown.blanks.members,
        AsciiSet.whitespace.has d = true ∧ d ≠ '\r' := by decide
    have hspace : ∀ d ∈ before (c :: s) rest, AsciiSet.whitespace.has d = true ∧ d ≠ '\r' :=
      fun d hd => hsub d (AsciiSet.mem_members.2 (hblanks d hd))
    exact space_of_notMem (fun d hd => (hspace d hd).1) fun hd => (hspace _ hd).2 rfl
  · rw [hstep] at hkind
    have hkind : kind = .whitespace := hkind
    rw [hkind] at hmem
    exact absurd hmem (by decide)

/-- In every language white space is read to its end. -/
theorem Language.space_of_lex {language : Language}
    (h : language.lex text = front ++ lexeme :: back) (hkind : lexeme.kind = .whitespace) :
    Space lexeme.text (back.flatMap Lexeme.text) := by
  cases language with
  | python => exact Python.spaces_lexer.space h hkind
  | javaScript => exact JavaScript.spaces_lexer.space h hkind
  | json => exact Json.spaces_lexer.space h hkind
  | html => exact Html.spaces_lexer.space h hkind
  | markdown => exact Markdown.spaces_lexer.space h hkind
  | rust => exact Rust.spaces_lexer.space h hkind
  | go => exact Go.spaces_lexer.space h hkind

end Highlight
