import Highlight.Proofs.Decorators
import Highlight.Proofs.FieldReturns
import Highlight.Proofs.JavaScriptTokens
import Highlight.Proofs.PythonTokens
import Highlight.Proofs.SpaceLexemes

/-!
# Line endings

A text whose lines end with a carriage return and a newline is read like one whose lines end with
the newline alone: the lexemes have the same kinds, one by one. This is shown for the languages that
have strings with fields. Two scans go through the two texts side by side, in the same states. They
are at the same place or both at a newline with the return passed over, and white space is next in
either case. A step of the one then does what a step of the other does, for each rule goes on or
stops alike.

There are two exceptions, and both come from strings that end with their line. In the first a
newline is escaped, so that the string goes on in the next line; behind a return it is not, and the
string ends. In the second a field of an f-string is closed, or its format specification begins, and
a newline is next that ends the string. There is no text then, and the newline is white space. With
a return in front of it there is text, and the return is a lexeme that the other scan does not come
to.
-/

namespace Highlight

variable {c c' : Char} {text s t rest : List Char}

namespace Lexer

variable {σ : Type} {lexer : Lexer σ} {state : σ}

/-- Two runs give lexemes of the same kinds if each step of the one leads them from related rests to
related rests. -/
theorem map_kind_run {R : σ → List Char → List Char → Prop}
    (hnil : ∀ state s', R state [] s' → s' = [])
    (hstep : ∀ state c s s', lexer.Visits text state (c :: s) → R state (c :: s) s' →
      ∃ c' t, s' = c' :: t ∧ (lexer.step state c' t).kind = (lexer.step state c s).kind ∧
        (lexer.step state c' t).state = (lexer.step state c s).state ∧
        R (lexer.step state c s).state (lexer.step state c s).rest (lexer.step state c' t).rest)
    {state : σ} {s s' : List Char} (hvisits : lexer.Visits text state s) (h : R state s s') :
    (lexer.run state s').map Lexeme.kind = (lexer.run state s).map Lexeme.kind := by
  match s with
  | [] => rw [hnil state s' h]
  | c :: s =>
      obtain ⟨c', t, rfl, hkind, hstate, hnext⟩ := hstep state c s s' hvisits h
      have hle := (lexer.rest_suffix state c s).length_le
      rw [run_cons, run_cons, List.map_cons, List.map_cons, hkind, hstate,
        map_kind_run hnil hstep hvisits.step hnext]
termination_by s.length
decreasing_by exact Nat.lt_succ_of_le hle

end Lexer

/-! ## JavaScript

No string with fields ends with its line here, so the two scans are always at the same place. What
remains is the flag by which a slash divides or opens a regular expression. It is set by the texts
of lexemes, which may have returns in them, but it depends on a few words only, and none of those
has a newline. -/

namespace JavaScript

open Nesting

variable {state : State} {nesting : Nesting}

theorem behindRegex_newline (inClass : Bool) (s : List Char) :
    behindRegex inClass ('\n' :: s) = '\n' :: s := by
  rw [behindRegex.eq_def]
  rfl

/-- A newline ends a regular expression, and an escape takes the return in front of it at most. -/
theorem samePlace_behindRegex (inClass : Bool) (s : List Char) :
    SamePlace (behindRegex inClass s) (behindRegex inClass (withReturns s)) := by
  have hreturn (inClass : Bool) (s : List Char) :
      behindRegex inClass ('\r' :: s) = behindRegex inClass s := by
    rw [behindRegex_cons (by decide) (by decide), if_neg (by decide), if_neg (by decide),
      if_neg fun h => absurd h.1 (by decide)]
  match s with
  | [] => exact .same []
  | c :: s =>
      by_cases hc : c = '\n'
      · subst hc
        rw [withReturns_newline, hreturn, behindRegex_newline, behindRegex_newline]
        exact .newline s
      · rw [withReturns_cons hc]
        by_cases hescape : c = '\x5c'
        · subst hescape
          match s with
          | [] => exact .same []
          | d :: s =>
              by_cases hd : d = '\n'
              · subst hd
                have hstop : behindRegex inClass ('\x5c' :: '\n' :: s) = '\n' :: s := by
                  rw [behindRegex.eq_def]
                  rfl
                rw [withReturns_newline, hstop, behindRegex_escape (by decide), behindRegex_newline]
                exact .newline s
              · rw [withReturns_cons hd, behindRegex_escape hd, behindRegex_escape hd]
                exact samePlace_behindRegex inClass s
        · rw [behindRegex_cons hescape hc, behindRegex_cons hescape hc]
          split
          · exact samePlace_behindRegex true s
          · split
            · exact samePlace_behindRegex false s
            · split
              · rw [dropWhile_withReturns rfl]
                exact .same _
              · exact samePlace_behindRegex inClass s
termination_by s.length

theorem follows_scanRegex (operandNext : Bool) : Rule.Follows (scanRegex operandNext) := by
  intro s _
  cases s with
  | nil => exact .none
  | cons c s =>
      by_cases hc : c = '\n'
      · subst hc
        exact .none
      · rw [withReturns_cons hc, scanRegex, scanRegex]
        split
        · exact .some (Match.follows_of_samePlace (by decide) (samePlace_behindRegex false s))
        · exact .none

theorem keeps_scanWord : Rule.Keeps scanWord := by
  intro s
  rw [scanWord, scanWord, atWord_withReturns (by decide) (by decide),
    wordOf_withReturns (by decide) (by decide), behindWord_withReturns (by decide) (by decide)]
  split <;> rfl

theorem keeps_scanPrivate : Rule.Keeps scanPrivate := by
  refine Rule.keeps_of_cons rfl (fun s => ⟨rfl, rfl⟩) fun c s _ => ?_
  rw [scanPrivate, scanPrivate, atWord_withReturns (by decide) (by decide),
    behindWord_withReturns (by decide) (by decide)]
  split <;> rfl

theorem follows_leading (state : State) : Rule.Follows (Rule.firstOf (leading state)) := by
  refine Rule.follows_firstOf fun rule hmem => ?_
  simp only [leading, List.mem_cons, List.not_mem_nil, or_false] at hmem
  rcases hmem with rfl | rfl | rfl | rfl
  · exact (Rule.keeps_run _ rfl).follows
  · exact follows_scanHashbang _
  · exact CommentSyntax.follows_scan_slashes
  · exact follows_scanRegex _

theorem follows_trailing : Rule.Follows (Rule.firstOf trailing) := by
  refine Rule.follows_firstOf fun rule hmem => ?_
  simp only [trailing, List.mem_cons, List.not_mem_nil, or_false] at hmem
  rcases hmem with rfl | rfl | rfl | rfl | rfl | rfl
  · exact StringSyntax.follows_scan (by decide) rfl rfl rfl rfl
  · exact (NumberSyntax.keeps_scan _).follows
  · exact keeps_scanWord.follows
  · exact keeps_scanPrivate.follows
  · exact (OperatorSyntax.keeps_scan code.clear.operators).follows
  · exact (Rule.keeps_single _ rfl rfl).follows

theorem scanCode_of_whitespace (state : State) (nesting : Nesting)
    (hc : AsciiSet.whitespace.has c = true) (s : List Char) :
    scanCode state nesting c s =
      (⟨.whitespace, s.dropWhile AsciiSet.whitespace.has⟩, nesting) := by
  have hspace : Rule.whitespace (c :: s) =
      some ⟨.whitespace, s.dropWhile AsciiSet.whitespace.has⟩ := by
    rw [Rule.whitespace, Rule.run, if_pos hc]
  have hfirst : Rule.firstOf (leading state) (c :: s) = _ := Rule.firstOf_cons_of_some hspace
  rw [scanCode, hfirst]

theorem suited_template : template.Suited := ⟨quoted_template, nofun⟩

/-- Code that is not white space. -/
theorem scanCode_agree (state : State) (hin : nesting.inCode = true) (hc : c ≠ '\n')
    (hline : (scanCode state nesting c s).1.kind = .string →
      '\n' ∉ before (c :: s) (scanCode state nesting c s).1.rest) :
    (scanCode state nesting c (withReturns s)).2 = (scanCode state nesting c s).2 ∧
      (scanCode state nesting c s).1.Follows (scanCode state nesting c (withReturns s)).1 := by
  have hleading := follows_leading state (c :: s) fun found hfound => by
    rw [scanCode, hfound] at hline
    exact hline
  rw [withReturns_cons hc] at hleading
  unfold scanCode at hline ⊢
  generalize Rule.firstOf (leading state) (c :: s) = found at hleading hline
  generalize Rule.firstOf (leading state) (c :: withReturns s) = found' at hleading
  cases hleading with
  | some hfollows => exact ⟨rfl, hfollows⟩
  | none =>
      dsimp only at hline ⊢
      split
      · have hline (hsingle : template.singleLine = true) :
            '\n' ∉ before s (nesting.enter template s).1.rest := by
          cases hsingle
        obtain ⟨hnesting, hfollows, -⟩ := enter_agree suited_template hin hline
        exact ⟨hnesting, hfollows⟩
      · next hquote =>
          rw [if_neg hquote] at hline
          exact ⟨rfl, Lexer.follows_scanOr follows_trailing hc hline⟩

theorem ofList_ne_of_mem {word : String} (hword : '\n' ∉ word.toList) (hline : '\n' ∈ text) :
    String.ofList text ≠ word := by
  rintro rfl
  rw [String.toList_ofList] at hword
  exact hword hline

/-- A word without a newline is not got by putting returns in front of newlines, nor lost. -/
theorem ofList_withReturns_eq {word : String} (hword : '\n' ∉ word.toList) (text : List Char) :
    String.ofList (withReturns text) = word ↔ String.ofList text = word := by
  by_cases hline : '\n' ∈ text
  · have hline' : '\n' ∈ withReturns text := List.mem_flatMap.2 ⟨'\n', hline, by decide⟩
    exact iff_of_false (ofList_ne_of_mem hword hline') (ofList_ne_of_mem hword hline)
  · rw [withReturns_eq_self hline]

/-- What is expected behind a lexeme depends on words without a newline. -/
theorem operandAfter_congr {kind : Kind} {expected : Bool} {text text' : List Char}
    (h : ∀ word : String, '\n' ∉ word.toList →
      (String.ofList text' = word ↔ String.ofList text = word)) :
    operandAfter kind text' expected = operandAfter kind text expected := by
  have hmem (words : List String) (hwords : ∀ word ∈ words, '\n' ∉ word.toList) :
      String.ofList text' ∈ words ↔ String.ofList text ∈ words := by
    constructor
    · exact fun hmem => (h _ (hwords _ hmem)).1 rfl ▸ hmem
    · exact fun hmem => (h _ (hwords _ hmem)).2 rfl ▸ hmem
  simp only [operandAfter, h "$\x7b" (by decide), hmem ["++", "--"] (by decide),
    hmem [")", "]", "\x7d"] (by decide), hmem ["this", "super"] (by decide)]

/-- What is expected behind a lexeme does not depend on the returns in it. -/
theorem operandAfter_follows {found found' : Match} (h : found.Follows found')
    (hs : found.rest <:+ s) (hplace : SamePlace (c :: s) (c' :: t)) (expected : Bool) :
    operandAfter found'.kind (before (c' :: t) found'.rest) expected =
      operandAfter found.kind (before (c :: s) found.rest) expected := by
  rw [h.kind]
  by_cases hmem : found.kind ∈ lineKinds
  · simp only [lineKinds, List.mem_cons, List.not_mem_nil, or_false] at hmem
    rcases hmem with hkind | hkind | hkind | hkind <;> rw [hkind] <;> rfl
  · rw [h.same hmem]
    refine operandAfter_congr fun word hword => ?_
    generalize heq : c' :: t = s' at hplace
    cases hplace with
    | same s =>
        rw [before_withReturns (hs.trans (List.suffix_cons ..))]
        exact ofList_withReturns_eq hword _
    | newline s =>
        cases heq
        obtain ⟨taken, rfl⟩ := hs
        rw [withReturns_append, ← List.cons_append, ← List.cons_append, before_append,
          before_append]
        exact iff_of_false (ofList_ne_of_mem hword List.mem_cons_self)
          (ofList_ne_of_mem hword List.mem_cons_self)

theorem suited_of_templated (h : Templated nesting) :
    Styled TemplateSyntax.Suited nesting :=
  fun frame hframe => h frame hframe ▸ suited_template

theorem not_singleLine_of_templated (h : Templated nesting) {frame : Frame}
    (hframe : frame ∈ nesting.head?) : frame.style.singleLine ≠ true := by
  rw [h frame (List.mem_of_mem_head? hframe)]
  exact nofun

theorem meets_of_templated (h : Templated nesting) {s s' : List Char} (hplace : SamePlace s s') :
    Meets nesting s s' := by
  cases hplace with
  | newline s => exact .newline s
  | same s =>
      refine .same s ?_
      rintro ⟨-, ⟨frame, hframe, hsingle⟩, -⟩
      exact not_singleLine_of_templated h hframe hsingle

theorem scan_agree (hvisits : lexer.Visits text state (c :: s))
    (hplace : SamePlace (c :: s) (c' :: t))
    (hline : (scan state c s).1.kind = .string →
      '\n' ∉ before (c :: s) (scan state c s).1.rest) :
    (scan state c' t).2 = (scan state c s).2 ∧
      (scan state c s).1.Follows (scan state c' t).1 := by
  have htemplated := templated_of_visits hvisits
  have hreach := reachable_of_visits hvisits
  have hagree := look_agree hreach (suited_of_templated htemplated)
    (meets_of_templated htemplated hplace)
    fun frame hframe hsingle => absurd hsingle (not_singleLine_of_templated htemplated hframe)
  rw [scan_eq_look] at hline
  rw [scan_eq_look, scan_eq_look]
  generalize hlook : state.nesting.look (c :: s) = scanned at hagree hline
  generalize state.nesting.look (c' :: t) = scanned' at hagree
  cases hagree with
  | piece hlands => exact ⟨rfl, hlands.follows⟩
  | code inner =>
      dsimp only at hline ⊢
      cases hc : AsciiSet.whitespace.has c with
      | true =>
          obtain ⟨hc', hrest, -⟩ := hplace.space hc
          rw [scanCode_of_whitespace state inner hc, scanCode_of_whitespace state inner hc', hrest]
          exact ⟨rfl, Match.follows_withReturns ⟨.whitespace, _⟩⟩
      | false =>
          obtain ⟨hne, rfl, rfl⟩ := hplace.visible hc
          exact scanCode_agree state (hreach.inCode_of_look hlook) hne hline

/-- The two scans stay together: no text of a template ends with its line. -/
theorem step_agree (hvisits : lexer.Visits text state (c :: s))
    (hplace : SamePlace (c :: s) (c' :: t))
    (hline : (step state c s).kind = .string → '\n' ∉ before (c :: s) (step state c s).rest) :
    (step state c' t).kind = (step state c s).kind ∧
      (step state c' t).state = (step state c s).state ∧
      SamePlace (step state c s).rest (step state c' t).rest := by
  obtain ⟨hnesting, hfollows⟩ := scan_agree hvisits hplace hline
  have hoperand := operandAfter_follows hfollows (scan_suffix state c s) hplace state.operandNext
  exact ⟨hfollows.kind, congrArg₂ (State.mk false) hoperand hnesting, hfollows.place⟩

/-- Returns in front of newlines leave the kinds of lexemes alone. -/
theorem map_kind_lex (h : ∀ lexeme ∈ lexer.lex text, lexeme.kind = .string → '\n' ∉ lexeme.text) :
    (lexer.lex (withReturns text)).map Lexeme.kind = (lexer.lex text).map Lexeme.kind := by
  refine Lexer.map_kind_run (R := fun _ => SamePlace) ?_ ?_ .start (.same text)
  · intro state s' hplace
    cases hplace
    rfl
  · intro state c s s' hvisits hplace
    obtain ⟨c', t, rfl⟩ := hplace.exists_cons
    exact ⟨c', t, rfl, step_agree hvisits hplace (h _ hvisits.mem_lex)⟩

end JavaScript

/-! ## Python

An f-string in single quotes ends with its line, and it is here that the scans may part. `Together`
is where two runs may be: at places that meet, with lexemes still to come among which none that
leads back to text has the end of its line behind it. -/

namespace Python

open Nesting

variable {state : State} {nesting : Nesting}

theorem behindDotted_point (h : behindWord .identContinue s = '.' :: t) :
    behindDotted s = if atWord .identStart t then behindDotted t else '.' :: t := by
  rw [behindDotted]
  split
  · next heq =>
      rw [h] at heq
      cases heq
      rfl
  · next hne => exact absurd h (hne t)

theorem behindDotted_end (h : (behindWord .identContinue s).head? ≠ some '.') :
    behindDotted s = behindWord .identContinue s := by
  rw [behindDotted]
  split
  · next heq =>
      rw [heq] at h
      exact absurd rfl h
  · rfl

theorem behindDotted_withReturns (s : List Char) :
    behindDotted (withReturns s) = withReturns (behindDotted s) := by
  have hword : behindWord .identContinue (withReturns s) = _ :=
    behindWord_withReturns (by decide) (by decide) s
  have hpoint : (withReturns (behindWord .identContinue s)).head? = some '.' ↔ _ :=
    head?_withReturns (by decide) (by decide)
  by_cases hhead : (behindWord .identContinue s).head? = some '.'
  · obtain ⟨t, heq⟩ := List.head?_eq_some_iff.1 hhead
    have hlt : t.length < s.length := by
      have hle := (behindWord_suffix .identContinue s).length_le
      rw [heq] at hle
      exact hle
    rw [heq, withReturns_cons (by decide)] at hword
    rw [behindDotted_point heq, behindDotted_point hword,
      atWord_withReturns (by decide) (by decide), behindDotted_withReturns t]
    split
    · rfl
    · rw [withReturns_cons (by decide)]
  · rw [behindDotted_end hhead, behindDotted_end (hword ▸ fun h => hhead (hpoint.1 h)), hword]
termination_by s.length

theorem keeps_scanDecorator (lineStart : Bool) : Rule.Keeps (scanDecorator lineStart) := by
  refine Rule.keeps_of_cons rfl (fun s => ⟨rfl, rfl⟩) fun c s _ => ?_
  rw [scanDecorator, scanDecorator, behindDotted_withReturns,
    atWord_withReturns (by decide) (by decide)]
  split <;> rfl

theorem keeps_scanWord : Rule.Keeps scanWord := by
  intro s
  rw [scanWord, scanWord, behindIdentifier?_withReturns, identifierOf_withReturns]
  cases behindIdentifier? s <;> rfl

theorem keeps_scanContinuation : Rule.Keeps scanContinuation := by
  refine Rule.keeps_of_cons rfl (fun s => ⟨rfl, rfl⟩) fun c s _ => ?_
  rw [scanContinuation, scanContinuation]
  split <;> rfl

theorem follows_leading (state : State) : Rule.Follows (Rule.firstOf (leading state)) := by
  refine Rule.follows_firstOf fun rule hmem => ?_
  simp only [leading, List.mem_cons, List.not_mem_nil, or_false] at hmem
  rcases hmem with rfl | rfl
  · exact follows_scanHashbang _
  · exact CommentSyntax.follows_scan_hash

theorem follows_trailing (state : State) : Rule.Follows (Rule.firstOf (trailing state)) := by
  refine Rule.follows_firstOf fun rule hmem => ?_
  simp only [trailing, List.mem_cons, List.not_mem_nil, or_false] at hmem
  rcases hmem with rfl | rfl | rfl | rfl | rfl | rfl | rfl
  · exact StringSyntax.follows_scan (by decide) rfl rfl rfl rfl
  · exact (NumberSyntax.keeps_scan _).follows
  · exact (keeps_scanDecorator _).follows
  · exact keeps_scanWord.follows
  · exact (OperatorSyntax.keeps_scan code.clear.operators).follows
  · exact (Rule.keeps_single _ rfl rfl).follows
  · exact keeps_scanContinuation.follows

theorem fString?_withReturns (s : List Char) :
    fString? (withReturns s) = (fString? s).map fun opened => (opened.1, withReturns opened.2) := by
  have haffixes : ∀ c ∈ strings.affixes, AsciiSet.whitespace.has c = false := by decide
  rw [fString?, fString?, StringSyntax.affix?_withReturns haffixes]
  cases haffix : strings.affix? s with
  | none => rfl
  | some affix =>
      obtain ⟨quote, t, rfl, hletters, hopens⟩ := StringSyntax.affix?_eq_some haffix
      have hquote : AsciiSet.whitespace.has quote = false := by
        simp [StringSyntax.opens, strings] at hopens
        rcases hopens with rfl | rfl <;> rfl
      have hline : '\n' ∉ affix := fun hmem => absurd (haffixes _ (hletters _ hmem)) (by decide)
      have hne : quote ≠ '\n' := by
        rintro rfl
        cases hquote
      have hquotes : ∀ c ∈ [quote, quote], AsciiSet.whitespace.has c = false := by
        simp [hquote]
      dsimp only
      rw [StringSyntax.drop_withReturns (List.prefix_append ..) hline, List.drop_left,
        withReturns_cons hne]
      dsimp only
      rw [isPrefixOf?_withReturns hquotes]
      split
      · cases [quote, quote].isPrefixOf? t <;> rfl
      · rfl

/-- Whether a string that may not span lines takes a newline. -/
def ContinuesLine (state : State) (c : Char) (s : List Char) : Prop :=
  (step state c s).kind = .string ∧ '\n' ∈ before (c :: s) (step state c s).rest ∧
    if state.nesting.inCode then
      ∀ style body, fString? (c :: s) = some (style, body) → style.triple = false
    else OnLine state.nesting

theorem FString.suited {style : TemplateSyntax} (h : FString style) : style.Suited :=
  ⟨h.quoted, fun _ => h.kind⟩

theorem FString.triple {style : TemplateSyntax} (h : FString style)
    (hsingle : style.singleLine = true) : style.triple = false := by
  rw [TemplateSyntax.singleLine, h.multiline] at hsingle
  simpa using hsingle

theorem leading_kind (h : Rule.firstOf (leading state) s = some found) : found.kind ≠ .string := by
  have hgives : (Rule.firstOf (leading state)).Gives
      [.commentHashbang, .commentMultiline, .commentSingle] := by
    refine Rule.gives_firstOf fun rule hmem => ?_
    simp only [leading, List.mem_cons, List.not_mem_nil, or_false] at hmem
    rcases hmem with rfl | rfl
    · exact (gives_scanHashbang _).mono (by decide)
    · exact (CommentSyntax.gives_scan _).mono (by decide)
  intro hkind
  exact absurd (hkind ▸ hgives s found h) (by decide)

/-- Code that is not white space. -/
theorem scanToken_agree (state : State) (hin : nesting.inCode = true) (hc : c ≠ '\n')
    (hline : (scanToken state nesting c s).1.kind = .string →
      (∀ style body, fString? (c :: s) = some (style, body) → style.triple = false) →
        '\n' ∉ before (c :: s) (scanToken state nesting c s).1.rest) :
    (scanToken state nesting c (withReturns s)).2 = (scanToken state nesting c s).2 ∧
      (scanToken state nesting c s).1.Follows (scanToken state nesting c (withReturns s)).1 ∧
      Meets (scanToken state nesting c s).2 (scanToken state nesting c s).1.rest
        (scanToken state nesting c (withReturns s)).1.rest := by
  have hleading := follows_leading state (c :: s) fun found hfound hkind =>
    absurd hkind (leading_kind hfound)
  have hopen := fString?_withReturns (c :: s)
  rw [withReturns_cons hc] at hleading hopen
  unfold scanToken at hline ⊢
  generalize Rule.firstOf (leading state) (c :: s) = found at hleading hline
  generalize Rule.firstOf (leading state) (c :: withReturns s) = found' at hleading
  cases hleading with
  | some hfollows => exact ⟨rfl, hfollows, meets_of_inCode hin hfollows.place⟩
  | none =>
      dsimp only at hline ⊢
      cases hstring : fString? (c :: s) with
      | none =>
          rw [hstring] at hopen hline
          rw [hopen]
          have hfollows := Lexer.follows_scanOr (follows_trailing state) hc fun hkind =>
            hline hkind nofun
          exact ⟨rfl, hfollows, meets_of_inCode hin hfollows.place⟩
      | some opened =>
          obtain ⟨style, body⟩ := opened
          have hstyle := fString_of_fString? hstring
          have hbody := (fString?_suffix hstring).trans (List.suffix_cons c s)
          rw [hstring] at hopen hline
          rw [hopen]
          refine enter_agree hstyle.suited hin fun hsingle => ?_
          refine notMem_before (hline hstyle.kind ?_) hbody (enter_suffix ..)
          intro style' body' heq
          cases heq
          exact hstyle.triple hsingle

/-- The frames of a string that a newline ends are left in front of it. -/
theorem settle_newline (hstacked : Stacked nesting) (hopen : FStrings nesting)
    (h : nesting.inCode = true ∨ ∃ frame ∈ nesting.head?, frame.style.singleLine = true)
    (s : List Char) : (nesting.settle ('\n' :: s)).1 = none := by
  induction nesting with
  | nil => rfl
  | cons frame outer ih =>
      obtain ⟨hlies, houter⟩ := stacked_cons.1 hstacked
      obtain ⟨hframe, hopenOuter⟩ := styled_cons.1 hopen
      by_cases hcode : frame.isCode = true
      · have hin : inCode (frame :: outer) = true := hcode
        rw [settle_of_inCode hin]
      · obtain ⟨f, hf, hsingle⟩ := h.resolve_left hcode
        cases hf
        have hscan : frame.scan ('\n' :: s) = none := by
          cases frame with
          | field style depth => exact absurd rfl hcode
          | text style =>
              have htext := style.text_newline hframe.quoted hsingle s
              rw [Frame.scan, TemplateSyntax.opener?,
                if_pos (style.opener_ne_of_whitespace rfl)]
              dsimp only
              rw [htext, Frame.run, if_neg (Nat.lt_irrefl _)]
          | spec style =>
              rw [Frame.scan_spec_of_ne (by simp) (by simp), style.specRest_newline hsingle, Frame.run,
                if_neg (Nat.lt_irrefl _)]
        rw [settle, if_neg hcode, hscan]
        refine ih houter hopenOuter ?_
        cases frame with
        | field style depth => exact absurd rfl hcode
        | text style => exact .inl (Frame.inCode_of_liesOn hlies)
        | spec style =>
            obtain ⟨below, rfl | rfl⟩ := hlies
            · exact .inr ⟨_, rfl, hsingle⟩
            · exact .inr ⟨_, rfl, hsingle⟩

/-- If a string is closed by the newline that is next, the newline is white space of code. -/
theorem kind_step_of_interrupted (hreach : Reachable state.nesting (c :: s))
    (hopen : FStrings state.nesting) (h : state.nesting.Interrupted (c :: s)) :
    (step state c s).kind = .whitespace := by
  obtain ⟨-, hsingle, hline⟩ := h
  cases hline
  have hsettle := settle_newline hreach.stacked hopen (.inr hsingle) s
  have hlook : ∃ nesting, state.nesting.look ('\n' :: s) = (none, nesting) := by
    rcases look_cases state.nesting ('\n' :: s) with
      ⟨found, nesting, heq, -⟩ | ⟨inner, heq, hinner⟩
    · rw [heq] at hsettle
      cases hsettle
    · rw [hinner]
      have hin := (hreach.of_settle_none heq).2
      cases inner with
      | nil => exact ⟨[], rfl⟩
      | cons frame outer =>
          cases frame with
          | text style => cases hin
          | spec style => cases hin
          | field style depth =>
              rw [delimiter_blank (by simp)]
              split <;> exact ⟨_, rfl⟩
  obtain ⟨nesting, hlook⟩ := hlook
  rw [step_of_whitespace hlook rfl]

/-- The two scans stay together, but for a field that is closed in front of the newline that ends
the string. -/
theorem step_agree (hvisits : lexer.Visits text state (c :: s))
    (hmeets : Meets state.nesting (c :: s) (c' :: t)) (hline : ¬ ContinuesLine state c s) :
    (step state c' t).kind = (step state c s).kind ∧
      (step state c' t).state = (step state c s).state ∧
      (Meets (step state c s).state.nesting (step state c s).rest (step state c' t).rest ∨
        (step state c s).kind = .stringInterpol ∧
          before (c :: s) (step state c s).rest ≠ ['\x7b'] ∧
          (step state c' t).rest = withReturns (step state c s).rest) := by
  have hopen := fStrings_of_visits hvisits
  have hreach := reachable_of_visits hvisits
  have hplace := hmeets.samePlace
  have hagree := look_agree hreach (fun frame hframe => (hopen frame hframe).suited) hmeets <| by
    intro frame hframe hsingle found after hkind hlook hmem
    refine hline ?_
    rw [ContinuesLine, step_of_piece hlook]
    refine ⟨hkind, hmem, ?_⟩
    split
    · next hin =>
        rw [look, settle_of_inCode hin] at hlook
        rw [kind_of_delimiter hlook] at hkind
        cases hkind
    · exact ⟨frame, hframe, (hopen frame (List.mem_of_mem_head? hframe)).triple hsingle⟩
  rcases look_step_cases state c s with
    ⟨found, nesting, hlook⟩ | ⟨nesting, hlook, hc⟩ | ⟨nesting, hlook, hc⟩
  · rw [hlook] at hagree
    generalize hlook' : state.nesting.look (c' :: t) = scanned' at hagree
    cases hagree with
    | piece hlands =>
        rw [step_of_piece hlook, step_of_piece hlook']
        refine ⟨hlands.follows.kind, rfl, hlands.meets.imp_right ?_⟩
        rintro ⟨hkind, hrest, hs⟩
        refine ⟨hkind, ?_, hrest⟩
        rcases hs with hs | hs
        · rw [hs, ← List.singleton_append, before_append]
          decide
        · rw [hs, ← List.singleton_append, before_append]
          decide
  · rw [hlook] at hagree
    have hin := hreach.inCode_of_look hlook
    generalize hlook' : state.nesting.look (c' :: t) = scanned' at hagree
    cases hagree with
    | code =>
        obtain ⟨hc', hrest, hspace⟩ := hplace.space hc
        rw [step_of_whitespace hlook hc, step_of_whitespace hlook' hc', hrest, hspace]
        exact ⟨rfl, rfl, .inl (meets_of_inCode hin (.same _))⟩
  · rw [hlook] at hagree
    have hin := hreach.inCode_of_look hlook
    generalize hlook' : state.nesting.look (c' :: t) = scanned' at hagree
    cases hagree with
    | code =>
        obtain ⟨hne, rfl, rfl⟩ := hplace.visible hc
        have hcode : state.nesting.inCode = true := by
          rw [← Bool.not_eq_false]
          exact fun hnot => hne (LineOver.head_eq (.inr (.inr hnot)) hreach hlook)
        rw [ContinuesLine, step_of_token hlook hc, if_pos hcode] at hline
        obtain ⟨hnesting, hfollows, hnext⟩ := scanToken_agree state hin hne
          fun hkind hstyles hmem => hline ⟨hkind, hmem, hstyles⟩
        rw [step_of_token hlook hc, step_of_token hlook' hc, hnesting]
        exact ⟨hfollows.kind, rfl, .inl hnext⟩

/-- Whether text is next behind a delimiter that leads back to text, and not the end of the line. -/
def TextFollows (lexeme next : Lexeme) : Prop :=
  lexeme.kind = .stringInterpol → next.kind = .whitespace → lexeme.text = ['\x7b']

instance (lexeme next : Lexeme) : Decidable (TextFollows lexeme next) :=
  inferInstanceAs (Decidable (_ → _))

/-- Where a run is in the two texts, with the rest of the lexemes still to come. -/
def Together (state : State) (s s' : List Char) : Prop :=
  Meets state.nesting s s' ∧ (lexer.run state s).IsChain TextFollows

theorem together_step (hvisits : lexer.Visits text state (c :: s))
    (h : Together state (c :: s) (c' :: t)) (hline : ¬ ContinuesLine state c s) :
    (step state c' t).kind = (step state c s).kind ∧
      (step state c' t).state = (step state c s).state ∧
      Together (step state c s).state (step state c s).rest (step state c' t).rest := by
  obtain ⟨hmeets, hchain⟩ := h
  obtain ⟨hkind, hstate, hnext⟩ := step_agree hvisits hmeets hline
  rw [Lexer.run_cons] at hchain
  refine ⟨hkind, hstate, ?_, hchain.tail⟩
  rcases hnext with hnext | ⟨hinterpol, htext, hrest⟩
  · exact hnext
  · rw [hrest]
    refine .same _ fun hinterrupted => htext ?_
    -- The newline that ends the string would be in the next lexeme, and there is no text then.
    obtain ⟨u, hu⟩ := List.head?_eq_some_iff.1 hinterrupted.2.2
    have hvisits' : lexer.Visits text (step state c s).state (step state c s).rest := hvisits.step
    have hchain' : (_ :: lexer.run (step state c s).state (step state c s).rest).IsChain
        TextFollows := hchain
    rw [hu] at hinterrupted hvisits'
    have hspace := kind_step_of_interrupted (reachable_of_visits hvisits')
      (fStrings_of_visits hvisits') hinterrupted
    rw [hu, Lexer.run_cons] at hchain'
    exact (List.isChain_cons_cons.1 hchain').1 hinterpol hspace

/-- Returns in front of newlines leave the kinds of lexemes alone. -/
theorem map_kind_lex
    (hline : ∀ state c s, lexer.Visits text state (c :: s) → ¬ ContinuesLine state c s)
    (hfields : (lexer.lex text).IsChain TextFollows) :
    (lexer.lex (withReturns text)).map Lexeme.kind = (lexer.lex text).map Lexeme.kind := by
  have hstart : Together lexer.start text (withReturns text) :=
    ⟨.same text (not_interrupted_of_inCode rfl text), hfields⟩
  refine Lexer.map_kind_run (R := Together) ?_ ?_ .start hstart
  · rintro state s' ⟨hmeets, -⟩
    cases hmeets
    rfl
  · intro state c s s' hvisits htogether
    obtain ⟨c', t, rfl⟩ := htogether.1.samePlace.exists_cons
    exact ⟨c', t, rfl, together_step hvisits htogether (hline state c s hvisits)⟩

/-- No string of a text goes on in the next line if none has a newline. -/
theorem not_continuesLine (h : ∀ lexeme ∈ lexer.lex text, lexeme.kind = .string →
    '\n' ∉ lexeme.text) (hvisits : lexer.Visits text state (c :: s)) :
    ¬ ContinuesLine state c s :=
  fun hline => h _ hvisits.mem_lex hline.1 hline.2.1

end Python

/-- A carriage return in front of every newline leaves the kinds of all lexemes as they are, white
space among them, if no string on a single line takes a newline that is escaped, and no delimiter
that leads back to the text of a string has the newline next that ends the string. -/
theorem Language.map_kind_lex_withReturns (text : List Char) :
    ((∀ lexeme ∈ Language.javaScript.lex text, lexeme.kind = .string → '\n' ∉ lexeme.text) →
      (Language.javaScript.lex (withReturns text)).map Lexeme.kind =
        (Language.javaScript.lex text).map Lexeme.kind) ∧
    ((∀ state c s, Python.lexer.Visits text state (c :: s) → ¬ Python.ContinuesLine state c s) →
      (Language.python.lex text).IsChain Python.TextFollows →
      (Language.python.lex (withReturns text)).map Lexeme.kind =
        (Language.python.lex text).map Lexeme.kind) :=
  ⟨JavaScript.map_kind_lex, Python.map_kind_lex⟩

/-- A field of an f-string, a comment behind it, and text in triple quotes that spans lines. -/
theorem Language.map_kind_lex_withReturns_fString :
    let text := "f'\x7bx\x7d'#y\n'''z\n'''\n".toList
    (Language.javaScript.lex (withReturns text)).map Lexeme.kind =
        (Language.javaScript.lex text).map Lexeme.kind ∧
      (Language.python.lex (withReturns text)).map Lexeme.kind =
        (Language.python.lex text).map Lexeme.kind ∧
      (Language.python.lex text).map Lexeme.kind =
        [.string, .stringInterpol, .name, .stringInterpol, .string, .commentSingle, .whitespace,
          .stringDoc, .whitespace] := by
  intro text
  obtain ⟨hscript, hpython⟩ := Language.map_kind_lex_withReturns text
  refine ⟨hscript (by decide +kernel), hpython ?_ (by decide +kernel), by decide +kernel⟩
  exact fun state c s => Python.not_continuesLine (by decide +kernel)

/-- Of an escaped newline with a return in front of it only the return is taken, and the newline
ends the string. Behind a field the return is text of its own. -/
theorem Language.kinds_withReturns_ne :
    let kinds (lexemes : List Lexeme) :=
      (lexemes.filter fun lexeme => lexeme.kind ≠ .whitespace).map Lexeme.kind
    let escaped := "'a\x5c\nc'".toList
    let field := "f'\x7bx\x7d\n".toList
    '\r' ∉ escaped ∧ '\r' ∉ field ∧
      kinds (Language.javaScript.lex escaped) = [.string] ∧
      kinds (Language.javaScript.lex (withReturns escaped)) = [.string, .name, .string] ∧
      kinds (Language.python.lex escaped) = [.string] ∧
      kinds (Language.python.lex (withReturns escaped)) = [.string, .name, .string] ∧
      kinds (Language.python.lex field) = [.string, .stringInterpol, .name, .stringInterpol] ∧
      kinds (Language.python.lex (withReturns field)) =
        [.string, .stringInterpol, .name, .stringInterpol, .string] := by
  decide +kernel

end Highlight
