import Highlight.Proofs.Dispatch
import Highlight.Proofs.NestingProgress
import Highlight.Proofs.RuleKinds
import Highlight.Proofs.Runs

/-!
# The strings that are open

A frame is of the style of the string it belongs to, and it passes the style on to what is put on it
or in its place. So whatever is known of the styles a language opens strings with is known of every
frame there ever is: `Nesting.Styled`. In the one language all open strings are templates. In the
other they are f-strings, which differ from each other in nothing but their quotes, and of which
those in triple quotes are the only ones that may span lines.

A language with such strings asks for a piece of the open string in front of everything else, and
for a delimiter where there is none: `Nesting.look`. Only where neither is there does it scan code,
and what a step does is said here once for each of the two languages.
-/

namespace Highlight

namespace Nesting

variable {P : TemplateSyntax → Prop} {frame : Frame} {outer nesting nesting' : Nesting}
  {s : List Char} {found : Match}

/-- Whether every open string is of a sort. -/
def Styled (P : TemplateSyntax → Prop) (nesting : Nesting) : Prop :=
  ∀ frame ∈ nesting, P frame.style

theorem styled_nil : Styled P [] := List.forall_mem_nil _

theorem styled_cons : Styled P (frame :: outer) ↔ P frame.style ∧ Styled P outer :=
  List.forall_mem_cons

theorem Styled.of_suffix (h : Styled P nesting) (hs : outer <:+ nesting) : Styled P outer :=
  fun frame hmem => h frame (hs.mem hmem)

theorem Styled.frames_of_scan {frames : List Frame} (h : Styled P (frame :: outer))
    (hscan : frame.scan s = some (found, frames)) : Styled P (frames ++ outer) := by
  obtain ⟨hframe, houter⟩ := styled_cons.1 h
  rcases Frame.frames_of_scan hscan with rfl | rfl | rfl
  · exact houter
  · exact h
  · exact styled_cons.2 ⟨hframe, h⟩

theorem Styled.settle (h : Styled P nesting) (s : List Char) : Styled P (nesting.settle s).2 := by
  induction nesting with
  | nil => exact h
  | cons frame outer ih =>
      rw [Nesting.settle]
      split
      · exact h
      · split
        · next found frames hscan => exact h.frames_of_scan hscan
        · exact ih (styled_cons.1 h).2

theorem Styled.delimiter (h : Styled P nesting) (s : List Char) :
    Styled P (nesting.delimiter s).2 := by
  cases nesting with
  | nil => exact h
  | cons frame outer =>
      cases frame with
      | text style => exact h
      | spec style => exact h
      | field style depth =>
          obtain ⟨hstyle, houter⟩ := styled_cons.1 h
          rcases delimiter_cases style depth outer s with
            ⟨depth', heq⟩ | ⟨found, heq⟩ | ⟨found, heq⟩ | heq
          · rw [heq]
            exact styled_cons.2 ⟨hstyle, houter⟩
          · rw [heq]
            exact houter
          · rw [heq]
            exact styled_cons.2 ⟨hstyle, houter⟩
          · rw [heq]
            exact h.of_suffix (leaveLine_suffix _)

theorem Styled.enter {style : TemplateSyntax} (h : Styled P nesting) (hstyle : P style)
    (body : List Char) : Styled P (nesting.enter style body).2 := by
  rw [Nesting.enter]
  dsimp only
  split
  · exact styled_cons.2 ⟨hstyle, h⟩
  · exact h

theorem kind_of_scan {frames : List Frame} (h : frame.scan s = some (found, frames)) :
    found.kind = .stringInterpol ∨ found.kind = frame.style.kind := by
  cases frame with
  | field style depth => cases h
  | text style =>
      rw [Frame.scan] at h
      split at h
      · cases h
        exact .inl rfl
      · cases Frame.eq_of_run h
        exact .inr rfl
  | spec style =>
      rw [Frame.scan.eq_def] at h
      dsimp only at h
      split at h
      · cases h
        exact .inl rfl
      · cases h
        exact .inl rfl
      · cases Frame.eq_of_run h
        exact .inr rfl

theorem Styled.kind_settle (h : Styled P nesting)
    (hsettle : nesting.settle s = (some found, nesting')) :
    found.kind = .stringInterpol ∨ ∃ style, P style ∧ found.kind = style.kind := by
  induction nesting with
  | nil => cases hsettle
  | cons frame outer ih =>
      obtain ⟨hframe, houter⟩ := styled_cons.1 h
      rw [Nesting.settle] at hsettle
      split at hsettle
      · cases hsettle
      · split at hsettle
        · next found' frames hscan =>
            cases hsettle
            exact (kind_of_scan hscan).imp_right fun hkind => ⟨frame.style, hframe, hkind⟩
        · exact ih houter hsettle

theorem kind_of_delimiter (h : nesting.delimiter s = (some found, nesting')) :
    found.kind = .stringInterpol := by
  unfold Nesting.delimiter at h
  repeat' split at h
  all_goals cases h
  all_goals rfl

/-! ## Looking before code is scanned

What a language with open strings does first in a step is the same everywhere: it settles the
nesting and has the next character looked at. `look` is both together. A step then either gives what
was found in this way or scans code, and what is to be shown of all lexemes is shown of the two. -/

/-- The next piece or delimiter of the strings that are open, if one is next, and the frames behind
it. Without one it is code that is next. -/
def look (nesting : Nesting) (s : List Char) : Option Match × Nesting :=
  match nesting.settle s with
  | (some found, nesting) => (some found, nesting)
  | (none, nesting) => nesting.delimiter s

/-- What is found in settling is that, and the rest is up to the delimiters. -/
theorem look_cases (nesting : Nesting) (s : List Char) :
    (∃ found nesting', nesting.settle s = (some found, nesting') ∧
      nesting.look s = (some found, nesting')) ∨
    ∃ inner, nesting.settle s = (none, inner) ∧ nesting.look s = inner.delimiter s := by
  rw [look]
  cases heq : nesting.settle s with
  | mk found nesting' =>
      cases found with
      | some found => exact .inl ⟨found, nesting', rfl, rfl⟩
      | none => exact .inr ⟨nesting', rfl, rfl⟩

/-- A language that looks for a piece and then for a delimiter looks for either. -/
theorem match_look {α : Type} (nesting : Nesting) (s : List Char) (piece : Match → Nesting → α)
    (code : Nesting → α) :
    (match nesting.settle s with
      | (some found, nesting) => piece found nesting
      | (none, nesting) =>
        match nesting.delimiter s with
        | (some found, nesting) => piece found nesting
        | (none, nesting) => code nesting) =
      match nesting.look s with
      | (some found, nesting) => piece found nesting
      | (none, nesting) => code nesting := by
  rcases look_cases nesting s with ⟨found, nesting', hsettle, hlook⟩ | ⟨inner, hsettle, hlook⟩
  · rw [hsettle, hlook]
  · rw [hsettle, hlook]

theorem Reachable.inCode_of_look (h : Reachable nesting s)
    (hlook : nesting.look s = (none, nesting')) : nesting'.inCode = true := by
  rcases look_cases nesting s with ⟨found, inner, hsettle, heq⟩ | ⟨inner, hsettle, heq⟩
  · rw [heq] at hlook
    cases hlook
  · rw [heq] at hlook
    obtain ⟨hreach, hin⟩ := h.of_settle_none hsettle
    exact (hreach.of_delimiter_none hin hlook).2

theorem Styled.look (h : Styled P nesting) (s : List Char) : Styled P (nesting.look s).2 := by
  have hsettle := h.settle s
  rcases look_cases nesting s with ⟨found, nesting', heq, hlook⟩ | ⟨inner, heq, hlook⟩
  · rw [heq] at hsettle
    rw [hlook]
    exact hsettle
  · rw [heq] at hsettle
    rw [hlook]
    exact Styled.delimiter hsettle s

/-- A piece is a delimiter, or it is text of a string that was open. -/
theorem Styled.kind_look (h : Styled P nesting) (hlook : nesting.look s = (some found, nesting')) :
    found.kind = .stringInterpol ∨ ∃ style, P style ∧ found.kind = style.kind := by
  rcases look_cases nesting s with ⟨found', nesting'', hsettle, heq⟩ | ⟨inner, hsettle, heq⟩
  · rw [heq] at hlook
    cases hlook
    exact h.kind_settle hsettle
  · rw [heq] at hlook
    exact .inl (kind_of_delimiter hlook)

end Nesting

namespace JavaScript

open Nesting

variable {state : State} {text s : List Char}

/-- Whether all open strings are templates. -/
abbrev Templated : Nesting → Prop := Styled (· = template)

/-- The kinds of lexemes. -/
def kinds : List Kind :=
  .whitespace :: .commentHashbang :: .commentMultiline :: .commentSingle :: .stringRegex ::
    .string :: .stringBacktick :: .stringInterpol :: .name :: .operator :: .punctuation ::
    .error :: (NumberSyntax.kinds ++ vocabulary.map Prod.fst)

theorem gives_scanRegex (operandNext : Bool) :
    Rule.Gives (scanRegex operandNext) [.stringRegex] := by
  intro s r hr
  unfold scanRegex at hr
  repeat' split at hr
  all_goals cases hr
  exact List.mem_singleton_self _

theorem gives_leading (state : State) :
    (Rule.firstOf (leading state)).Gives (kinds.erase .error) := by
  refine Rule.gives_firstOf fun rule hmem => ?_
  simp only [leading, List.mem_cons, List.not_mem_nil, or_false] at hmem
  rcases hmem with rfl | rfl | rfl | rfl
  · exact (Rule.gives_run _ _).mono (by decide)
  · exact (gives_scanHashbang _).mono (by decide)
  · exact (CommentSyntax.gives_scan _).mono (by decide)
  · exact (gives_scanRegex _).mono (by decide)

theorem gives_trailing :
    (Rule.firstOf trailing).Gives ((kinds.erase .error).erase .whitespace) := by
  refine Rule.gives_firstOf fun rule hmem => ?_
  simp only [trailing, List.mem_cons, List.not_mem_nil, or_false] at hmem
  rcases hmem with rfl | rfl | rfl | rfl | rfl | rfl
  · exact (StringSyntax.gives_scan _).mono (by decide)
  · exact (NumberSyntax.gives_scan _).mono (by decide)
  · intro s r hr
    unfold scanWord at hr
    split at hr
    · cases hr
      exact (by decide : .name :: vocabulary.map Prod.fst ⊆
        (kinds.erase .error).erase .whitespace) (vocabulary.kind_mem _)
    · cases hr
  · intro s r hr
    unfold scanPrivate at hr
    repeat' split at hr
    all_goals cases hr
    exact (by decide : Kind.name ∈ (kinds.erase .error).erase .whitespace)
  · exact (OperatorSyntax.gives_scan _).mono (by decide)
  · exact (Rule.gives_single _ _).mono (by decide)

theorem Templated.scanCode {nesting : Nesting} (h : Templated nesting) (state : State) (c : Char)
    (s : List Char) :
    (scanCode state nesting c s).1.kind ∈ kinds ∧ Templated (scanCode state nesting c s).2 := by
  unfold JavaScript.scanCode
  split
  · next found hfound => exact ⟨List.mem_of_mem_erase (gives_leading state _ _ hfound), h⟩
  · split
    · exact ⟨(by decide : Kind.stringBacktick ∈ kinds), h.enter rfl s⟩
    · refine ⟨?_, h⟩
      unfold Lexer.scanOr
      cases hfound : Rule.firstOf trailing (c :: s) with
      | none => exact (by decide : Kind.error ∈ kinds)
      | some found =>
          exact List.mem_of_mem_erase (List.mem_of_mem_erase (gives_trailing _ _ hfound))

theorem scan_eq_look (state : State) (c : Char) (s : List Char) :
    scan state c s = match state.nesting.look (c :: s) with
      | (some found, nesting) => (found, nesting)
      | (none, nesting) => scanCode state nesting c s :=
  match_look state.nesting (c :: s) Prod.mk fun nesting => scanCode state nesting c s

theorem Templated.step (h : Templated state.nesting) (c : Char) (s : List Char) :
    (step state c s).kind ∈ kinds ∧ Templated (step state c s).state.nesting := by
  show (scan state c s).1.kind ∈ kinds ∧ Templated (scan state c s).2
  have hnext := h.look (c :: s)
  cases hlook : state.nesting.look (c :: s) with
  | mk found nesting =>
      rw [hlook] at hnext
      cases found with
      | some found =>
          rw [scan_eq_look, hlook]
          refine ⟨?_, hnext⟩
          rcases h.kind_look hlook with hkind | ⟨style, rfl, hkind⟩
          · rw [hkind]
            decide
          · rw [hkind]
            decide
      | none =>
          rw [scan_eq_look, hlook]
          exact Templated.scanCode hnext state c s

end JavaScript

namespace Python

open Nesting

variable {state : State} {nesting nesting' : Nesting} {found : Match} {style : TemplateSyntax}
  {c : Char} {text s body : List Char}

/-- What all f-strings have in common. -/
structure FString (style : TemplateSyntax) : Prop where
  quoted : style.Quoted
  multiline : style.multiline = false
  dollar : style.dollar = false
  kind : style.kind = .string

theorem fString_of_fString? (h : fString? s = some (style, body)) : FString style := by
  have hquoted := (fString?_eq_some h).1
  unfold fString? at h
  repeat' split at h
  all_goals cases h
  · exact ⟨hquoted, rfl, rfl, rfl⟩
  · exact ⟨hquoted, rfl, rfl, rfl⟩

/-- Whether all open strings are f-strings. -/
abbrev FStrings : Nesting → Prop := Styled FString

theorem FStrings.scanToken (h : FStrings nesting) (state : State) (c : Char) (s : List Char) :
    FStrings (scanToken state nesting c s).2 := by
  unfold Python.scanToken
  split
  · exact h
  · split
    · next style body hopen => exact h.enter (fString_of_fString? hopen) body
    · exact h

/-- The kinds of lexemes of code, white space aside. -/
def kinds : List Kind :=
  .commentHashbang :: .commentMultiline :: .commentSingle :: .string :: .stringDoc ::
    .stringBacktick :: .nameDecorator :: .name :: .nameFunctionMagic :: .operator ::
    .punctuation :: .text :: .error :: (NumberSyntax.kinds ++ vocabulary.map Prod.fst)

theorem wordKind_mem (word : List Char) : wordKind word ∈ kinds.erase .error := by
  have hname : (vocabulary.lookup? word).getD .name ∈ kinds.erase .error :=
    (by decide : .name :: vocabulary.map Prod.fst ⊆ kinds.erase .error)
      (vocabulary.kind_mem word)
  rw [wordKind]
  cases hlookup : vocabulary.lookup? word with
  | some kind =>
      rw [hlookup] at hname
      exact hname
  | none =>
      show (if isMagic word then Kind.nameFunctionMagic else .name) ∈ kinds.erase .error
      split
      · exact (by decide : Kind.nameFunctionMagic ∈ kinds.erase .error)
      · exact (by decide : Kind.name ∈ kinds.erase .error)

theorem gives_leading (state : State) :
    (Rule.firstOf (leading state)).Gives (kinds.erase .error) := by
  refine Rule.gives_firstOf fun rule hmem => ?_
  simp only [leading, List.mem_cons, List.not_mem_nil, or_false] at hmem
  rcases hmem with rfl | rfl
  · exact (gives_scanHashbang _).mono (by decide)
  · exact (CommentSyntax.gives_scan _).mono (by decide)

theorem gives_trailing (state : State) :
    (Rule.firstOf (trailing state)).Gives (kinds.erase .error) := by
  refine Rule.gives_firstOf fun rule hmem => ?_
  simp only [trailing, List.mem_cons, List.not_mem_nil, or_false] at hmem
  rcases hmem with rfl | rfl | rfl | rfl | rfl | rfl | rfl
  · exact (StringSyntax.gives_scan _).mono (by decide)
  · exact (NumberSyntax.gives_scan _).mono (by decide)
  · intro s r hr
    unfold scanDecorator at hr
    repeat' split at hr
    all_goals cases hr
    exact (by decide : Kind.nameDecorator ∈ kinds.erase .error)
  · intro s r hr
    unfold scanWord at hr
    split at hr
    · cases hr
    · cases hr
      exact wordKind_mem _
  · exact (OperatorSyntax.gives_scan _).mono (by decide)
  · exact (Rule.gives_single _ _).mono (by decide)
  · intro s r hr
    unfold scanContinuation at hr
    repeat' split at hr
    all_goals cases hr
    exact (by decide : Kind.text ∈ kinds.erase .error)

theorem scanToken_kind (state : State) (nesting : Nesting) (c : Char) (s : List Char) :
    (scanToken state nesting c s).1.kind ∈ kinds := by
  unfold scanToken
  split
  · next found hfound => exact List.mem_of_mem_erase (gives_leading state _ _ hfound)
  · split
    · next style body hopen =>
        show style.kind ∈ kinds
        rw [(fString_of_fString? hopen).kind]
        decide
    · unfold Lexer.scanOr
      cases hfound : Rule.firstOf (trailing state) (c :: s) with
      | none => exact (by decide : Kind.error ∈ kinds)
      | some found => exact List.mem_of_mem_erase (gives_trailing state _ _ hfound)

theorem step_eq_look (state : State) (c : Char) (s : List Char) :
    step state c s = match state.nesting.look (c :: s) with
      | (some found, nesting) =>
        ⟨found.kind, found.rest, { state with fresh := false, nesting }⟩
      | (none, nesting) => stepCode state nesting c s :=
  match_look state.nesting (c :: s)
    (fun found nesting =>
      (⟨found.kind, found.rest, { state with fresh := false, nesting }⟩ : Step State))
    fun nesting => stepCode state nesting c s

/-- A piece leaves alone what is known about the line. -/
theorem step_of_piece (h : state.nesting.look (c :: s) = (some found, nesting)) :
    step state c s = ⟨found.kind, found.rest, { state with fresh := false, nesting }⟩ := by
  rw [step_eq_look, h]

theorem step_of_whitespace (h : state.nesting.look (c :: s) = (none, nesting))
    (hc : AsciiSet.whitespace.has c = true) :
    step state c s = ⟨.whitespace, s.dropWhile AsciiSet.whitespace.has,
      { fresh := false
        lineStart := state.lineStart || ((c :: s).takeWhile AsciiSet.whitespace.has).contains '\n'
        nesting }⟩ := by
  have hspace : Rule.whitespace (c :: s) =
      some ⟨.whitespace, s.dropWhile AsciiSet.whitespace.has⟩ := by
    rw [Rule.whitespace, Rule.run, if_pos hc]
  rw [step_eq_look, h]
  simp only [stepCode, hspace]

theorem before_step_of_whitespace (h : state.nesting.look (c :: s) = (none, nesting))
    (hc : AsciiSet.whitespace.has c = true) :
    before (c :: s) (lexer.step state c s).rest = (c :: s).takeWhile AsciiSet.whitespace.has := by
  have hrest : (lexer.step state c s).rest = (c :: s).dropWhile AsciiSet.whitespace.has := by
    rw [List.dropWhile_cons_of_pos hc]
    exact congrArg Step.rest (step_of_whitespace h hc)
  rw [hrest, before_dropWhile]

theorem step_of_token (h : state.nesting.look (c :: s) = (none, nesting))
    (hc : AsciiSet.whitespace.has c = false) :
    step state c s = ⟨(scanToken state nesting c s).1.kind, (scanToken state nesting c s).1.rest,
      { fresh := false, lineStart := false, nesting := (scanToken state nesting c s).2 }⟩ := by
  rw [step_eq_look, h]
  simp only [stepCode, Rule.whitespace_of_notMem hc]

/-- A step takes a piece of an open string, white space of code, or a token of code. -/
theorem look_step_cases (state : State) (c : Char) (s : List Char) :
    (∃ found nesting, state.nesting.look (c :: s) = (some found, nesting)) ∨
    (∃ nesting, state.nesting.look (c :: s) = (none, nesting) ∧
      AsciiSet.whitespace.has c = true) ∨
    ∃ nesting, state.nesting.look (c :: s) = (none, nesting) ∧
      AsciiSet.whitespace.has c = false := by
  cases state.nesting.look (c :: s) with
  | mk found nesting =>
      cases found with
      | some found => exact .inl ⟨found, nesting, rfl⟩
      | none =>
          cases AsciiSet.whitespace.has c with
          | true => exact .inr (.inl ⟨nesting, rfl, rfl⟩)
          | false => exact .inr (.inr ⟨nesting, rfl, rfl⟩)

theorem FStrings.step (h : FStrings state.nesting) (c : Char) (s : List Char) :
    FStrings (step state c s).state.nesting := by
  have hnext := h.look (c :: s)
  rcases look_step_cases state c s with
    ⟨found, nesting, hlook⟩ | ⟨nesting, hlook, hc⟩ | ⟨nesting, hlook, hc⟩
  · rw [hlook] at hnext
    rw [step_of_piece hlook]
    exact hnext
  · rw [hlook] at hnext
    rw [step_of_whitespace hlook hc]
    exact hnext
  · rw [hlook] at hnext
    rw [step_of_token hlook hc]
    exact FStrings.scanToken hnext state c s

theorem fStrings_of_visits (h : lexer.Visits text state s) : FStrings state.nesting := by
  induction h with
  | start => exact styled_nil
  | step h ih => exact ih.step _ _

/-- Only white space in code is a lexeme of that kind. -/
theorem exists_look_of_kind (h : FStrings state.nesting)
    (hkind : (step state c s).kind = .whitespace) :
    AsciiSet.whitespace.has c = true ∧
      ∃ nesting, state.nesting.look (c :: s) = (none, nesting) := by
  rcases look_step_cases state c s with
    ⟨found, nesting, hlook⟩ | ⟨nesting, hlook, hc⟩ | ⟨nesting, hlook, hc⟩
  · rw [step_of_piece hlook] at hkind
    have hkind : found.kind = .whitespace := hkind
    rcases h.kind_look hlook with heq | ⟨style, hstyle, heq⟩
    · rw [heq] at hkind
      cases hkind
    · rw [heq, hstyle.kind] at hkind
      cases hkind
  · exact ⟨hc, nesting, hlook⟩
  · rw [step_of_token hlook hc] at hkind
    have hmem := scanToken_kind state nesting c s
    have hkind : (scanToken state nesting c s).1.kind = .whitespace := hkind
    rw [hkind] at hmem
    exact absurd hmem (by decide)

end Python

end Highlight
