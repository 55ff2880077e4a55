import Highlight.Proofs.OpenStrings
import Highlight.Proofs.PythonTokens
import Highlight.Proofs.RuleLines
import Highlight.Proofs.Runs

/-!
# Decorators and the start of a line

An at sign with a name behind it is a decorator where nothing but white space is in front of it on
its line, and an operator elsewhere. What is in front is not looked at again. A flag says it, which
a newline in white space sets and a token clears, so whether the flag is right is a matter of all
the lexemes there can be on a line.

One way round it is. Where nothing but white space is in front, the flag is set: a token that leaves
the flag cleared leaves something to be seen on the line, or the line is over, and only white space
comes across its end. A piece of a string that was open is no better at hiding than a token.

The other way round it is not, for the pieces leave the flag alone. A line that begins in a field
and goes on with nothing but white space and pieces has its flag set still, whatever text and
delimiters those are. This is all that can go wrong: `Idle` says what was read since the line began,
and whether there was a piece in it.
-/

namespace Highlight

variable {s rest : List Char}

theorem TemplateSyntax.ends_opener? {style : TemplateSyntax} (h : style.opener? s = some rest) :
    Ends '\x7b' s rest := by
  cases s with
  | nil => cases h
  | cons c s =>
      rw [opener?] at h
      split at h
      · cases h
      · next hopener =>
          have hc := not_not.1 hopener
          split at h
          · rw [eq_append_of_isPrefixOf? h]
            exact .inr (.inr (List.suffix_cons c _))
          · next hdollar =>
              split at h
              · cases h
              · cases h
                rw [hc, opener_of_not_dollar (Bool.not_eq_true _ ▸ hdollar)]
                exact .inr (.inr List.suffix_rfl)

namespace Nesting

variable {frame : Frame} {outer nesting nesting' : Nesting} {found : Match}

/-- Whether no open string is quoted by white space. -/
abbrev QuotesSeen : Nesting → Prop :=
  Styled fun style => AsciiSet.whitespace.has style.quote = false

/-- A piece that leaves a scan in code leaves the line over or marked. -/
theorem marked_of_scan {frames : List Frame} (h : frame.scan s = some (found, frames))
    (hquote : AsciiSet.whitespace.has frame.style.quote = false) (outer : Nesting) :
    Marked s found.rest ∨ inCode (frames ++ outer) = false := by
  cases frame with
  | field style depth => cases h
  | text style =>
      rw [Frame.scan] at h
      split at h
      · next rest hopener =>
          cases h
          exact .inl ((TemplateSyntax.ends_opener? hopener).marked (by decide))
      · cases Frame.eq_of_run h
        split
        · exact .inr rfl
        · next hstop => exact .inl ((style.ends_text s hstop).marked hquote)
  | spec style =>
      rw [Frame.scan.eq_def] at h
      dsimp only at h
      split at h
      · cases h
        exact .inl (Rule.marked_tail (by decide) _)
      · cases h
        exact .inl (Rule.marked_tail (by decide) _)
      · cases Frame.eq_of_run h
        exact .inr rfl

theorem marked_of_settle (h : nesting.settle s = (some found, nesting'))
    (hquotes : QuotesSeen nesting) : Marked s found.rest ∨ nesting'.inCode = false := by
  induction nesting with
  | nil => cases h
  | cons frame outer ih =>
      obtain ⟨hframe, houter⟩ := styled_cons.1 hquotes
      rw [settle] at h
      split at h
      · cases h
      · split at h
        · next found' frames hscan =>
            cases h
            exact marked_of_scan hscan hframe outer
        · exact ih h houter

theorem marked_of_delimiter (h : nesting.delimiter s = (some found, nesting')) :
    Marked s found.rest := by
  unfold delimiter at h
  repeat' split at h
  all_goals cases h
  all_goals exact Rule.marked_tail (by decide) _

theorem marked_of_look (h : nesting.look s = (some found, nesting'))
    (hquotes : QuotesSeen nesting) : Marked s found.rest ∨ nesting'.inCode = false := by
  rcases look_cases nesting s with ⟨found', nesting'', hsettle, heq⟩ | ⟨inner, hsettle, heq⟩
  · rw [heq] at h
    cases h
    exact marked_of_settle hsettle hquotes
  · rw [heq] at h
    exact .inl (marked_of_delimiter h)

/-- From a string to code without a piece, there is a newline that ends the string, or nothing. What
lies under a specification is not code, so it is the text of the string that has ended. -/
theorem Settles.line_over {r : Option Match × Nesting} (h : Settles nesting s r)
    (hstacked : nesting.Stacked) (hin : nesting.inCode = false) (hnone : r.1 = none) :
    s = [] ∨ s.head? = some '\n' := by
  induction h with
  | code hcode =>
      rw [hcode] at hin
      cases hin
  | piece => cases hnone
  | @again nesting nesting' s r _ hleave more ih =>
      rcases literal_cases hin s with ⟨found, nesting'', piece, hfound, -, -⟩ |
        ⟨frame, outer, rfl, hleft, hended⟩
      · rw [hleave] at hfound
        cases hfound
      · rw [hleave] at hleft
        cases hleft
        obtain ⟨hframe, houter⟩ := stacked_cons.1 hstacked
        cases frame with
        | field style depth => cases hin
        | text style =>
            obtain ⟨-, stop, hstop, htext⟩ := hended
            have hends := style.ends_text s (by rw [htext]; exact hstop)
            rw [htext] at hends
            rcases hends with hnil | hline | hsuffix
            · exact .inl hnil
            · exact .inr hline
            · have hle : (style.quote :: s).length ≤ s.length := hsuffix.length_le
              rw [List.length_cons] at hle
              omega
        | spec style =>
            obtain ⟨below, rfl | rfl⟩ := hframe
            · exact ih houter rfl hnone
            · exact ih houter rfl hnone

end Nesting

namespace Python

open Nesting

variable {state : State} {nesting : Nesting} {c : Char} {text : List Char} {pieces : Bool}

theorem count_behindDotted (s : List Char) : (behindDotted s).count '\n' = s.count '\n' := by
  have hword (s : List Char) : (behindWord .identContinue s).count '\n' = s.count '\n' :=
    count_behindWord (by decide) s
  fun_induction behindDotted s with
  | case1 s s' hs _ ih =>
      have hcount := hword s
      rw [hs, List.count_cons_of_ne (by decide)] at hcount
      exact ih.trans hcount
  | case2 s s' hs _ =>
      rw [← hs]
      exact hword s
  | case3 s => exact hword s

theorem marks_leading (state : State) : (Rule.firstOf (leading state)).Marks := by
  refine Rule.marks_firstOf fun rule hmem => ?_
  simp only [leading, List.mem_cons, List.not_mem_nil, or_false] at hmem
  rcases hmem with rfl | rfl
  · exact marks_scanHashbang _
  · exact CommentSyntax.marks_scan rfl

theorem marks_trailing (state : State) : (Rule.firstOf (trailing state)).Marks := by
  refine Rule.marks_firstOf fun rule hmem => ?_
  simp only [trailing, List.mem_cons, List.not_mem_nil, or_false] at hmem
  rcases hmem with rfl | rfl | rfl | rfl | rfl | rfl | rfl
  · exact StringSyntax.marks_scan rfl
  · exact NumberSyntax.marks_scan _
  · refine Rule.marks_of_count (consumes_scanDecorator _) fun s r hr => ?_
    cases s with
    | nil => cases hr
    | cons c s =>
        rw [scanDecorator] at hr
        split at hr
        · next hat =>
            cases hr
            rw [hat.1, List.count_cons_of_ne (by decide)]
            exact count_behindDotted s
        · cases hr
  · refine Rule.marks_of_count consumes_scanWord fun s r hr => ?_
    unfold scanWord behindIdentifier? at hr
    repeat' split at hr
    all_goals cases hr
    next hrest =>
      split at hrest
      · cases hrest
        exact count_behindWord (by decide) s
      · cases hrest
  · exact code.clear.operators.marks_scan
  · exact Rule.marks_single _ _
  · intro c s r hc hr
    rw [scanContinuation] at hr
    split at hr
    · cases hr
      exact Rule.marked_tail hc s
    · cases hr

/-- A token that leaves a scan in code leaves the line over or marked. -/
theorem marked_of_scanToken (state : State) (nesting : Nesting)
    (hc : AsciiSet.whitespace.has c = false) (s : List Char) :
    Marked (c :: s) (scanToken state nesting c s).1.rest ∨
      (scanToken state nesting c s).2.inCode = false := by
  unfold scanToken
  split
  · next found hfound => exact .inl (marks_leading state c s found hc hfound)
  · split
    · next style body hopen =>
        have hbody := (fString?_suffix hopen).trans (List.suffix_cons c s)
        have hquote := (fString_of_fString? hopen).quoted.has_whitespace
        unfold Nesting.enter
        dsimp only
        split
        · exact .inr rfl
        · next hstop => exact .inl (((style.ends_text body hstop).trans hbody).marked hquote)
    · unfold Lexer.scanOr
      cases hfound : Rule.firstOf (trailing state) (c :: s) with
      | none => exact .inl (Rule.marked_tail hc s)
      | some found => exact .inl (marks_trailing state c s found hc hfound)

/-! ## What was read since the line began

`Idle` is the history that the flag stands for. It is an induction over the steps of a run, from
where the line began on, and tells apart whether a piece of a string was among what was read. With
the flag set there is such a history; without a piece in it, nothing can be seen in front on the
line. -/

/-- That in front of a text nothing was read since the line began but white space and pieces of
strings, and whether there was a piece. Lines begin with the text and behind a newline in white
space of code. -/
inductive Idle (text : List Char) : Bool → State → List Char → Prop where
  | start : Idle text false lexer.start text
  | newline {state : State} {nesting : Nesting} {c : Char} {s : List Char}
      (h : lexer.Visits text state (c :: s)) (hlook : state.nesting.look (c :: s) = (none, nesting))
      (hspace : AsciiSet.whitespace.has c = true)
      (hline : '\n' ∈ (c :: s).takeWhile AsciiSet.whitespace.has) :
      Idle text false (lexer.step state c s).state (lexer.step state c s).rest
  | space {pieces : Bool} {state : State} {nesting : Nesting} {c : Char} {s : List Char}
      (h : Idle text pieces state (c :: s)) (hlook : state.nesting.look (c :: s) = (none, nesting))
      (hspace : AsciiSet.whitespace.has c = true) :
      Idle text pieces (lexer.step state c s).state (lexer.step state c s).rest
  | piece {pieces : Bool} {state : State} {nesting : Nesting} {found : Match} {c : Char}
      {s : List Char} (h : Idle text pieces state (c :: s))
      (hlook : state.nesting.look (c :: s) = (some found, nesting)) :
      Idle text true (lexer.step state c s).state (lexer.step state c s).rest

theorem Idle.visits (h : Idle text pieces state s) : lexer.Visits text state s := by
  induction h with
  | start => exact .start
  | newline h => exact h.step
  | space _ _ _ ih => exact ih.step
  | piece _ _ ih => exact ih.step

theorem Idle.lineStart (h : Idle text pieces state s) : state.lineStart = true := by
  induction h with
  | start => rfl
  | @newline state nesting c s _ hlook hspace hline =>
      have hstep : lexer.step state c s = _ := step_of_whitespace hlook hspace
      have hfound := List.contains_iff_mem.2 hline
      rw [hstep]
      show (state.lineStart || _) = true
      rw [hfound, Bool.or_true]
  | @space _ state nesting c s _ hlook hspace ih =>
      have hstep : lexer.step state c s = _ := step_of_whitespace hlook hspace
      rw [hstep]
      show (state.lineStart || _) = true
      rw [ih, Bool.true_or]
  | @piece _ state nesting found c s _ hlook ih =>
      have hstep : lexer.step state c s = _ := step_of_piece hlook
      rw [hstep]
      exact ih

theorem exists_idle_of_lineStart (h : lexer.Visits text state s) (hline : state.lineStart = true) :
    ∃ pieces, Idle text pieces state s := by
  induction h with
  | start => exact ⟨false, .start⟩
  | @step state c s h ih =>
      rcases look_step_cases state c s with
        ⟨found, nesting, hlook⟩ | ⟨nesting, hlook, hc⟩ | ⟨nesting, hlook, hc⟩
      · have hstep : lexer.step state c s = _ := step_of_piece hlook
        rw [hstep] at hline
        obtain ⟨pieces, hidle⟩ := ih hline
        exact ⟨true, hidle.piece hlook⟩
      · have hstep : lexer.step state c s = _ := step_of_whitespace hlook hc
        rw [hstep] at hline
        rcases Bool.or_eq_true_iff.1 hline with hline | hline
        · obtain ⟨pieces, hidle⟩ := ih hline
          exact ⟨pieces, hidle.space hlook hc⟩
        · exact ⟨false, .newline h hlook hc (List.contains_iff_mem.1 hline)⟩
      · have hstep : lexer.step state c s = _ := step_of_token hlook hc
        rw [hstep] at hline
        cases hline

theorem blank_takeWhile (s : List Char) : Blank (s.takeWhile AsciiSet.whitespace.has) :=
  fun _ hc => List.mem_takeWhile_imp hc

theorem Idle.blank (h : Idle text false state s) : Blank (lastLine (before text s)) := by
  generalize hpieces : false = pieces at h
  induction h with
  | start =>
      have hnil := before_append [] text
      rw [List.nil_append] at hnil
      rw [hnil]
      exact List.forall_mem_nil _
  | newline h hlook hspace hline =>
      rw [h.before_step, before_step_of_whitespace hlook hspace]
      exact blank_lastLine_append (blank_takeWhile _) (.inl hline)
  | space h hlook hspace ih =>
      rw [h.visits.before_step, before_step_of_whitespace hlook hspace]
      exact blank_lastLine_append (blank_takeWhile _) (.inr (ih hpieces))
  | piece => cases hpieces

/-- Whether there will be no token on the line any more. -/
def LineOver (state : State) (s : List Char) : Prop :=
  s = [] ∨ s.head? = some '\n' ∨ state.nesting.inCode = false

/-- Where code is next and the line is over, its newline is next. -/
theorem LineOver.head_eq (h : LineOver state (c :: s)) (hreach : Reachable state.nesting (c :: s))
    (hlook : state.nesting.look (c :: s) = (none, nesting)) : c = '\n' := by
  have hhead : (c :: s).head? = some '\n' := by
    rcases h with hnil | hline | hin
    · cases hnil
    · exact hline
    · rcases look_cases state.nesting (c :: s) with ⟨found, inner, -, heq⟩ | ⟨inner, heq, -⟩
      · rw [heq] at hlook
        cases hlook
      · have hsettles := settles_settle state.nesting (c :: s)
        rw [heq] at hsettles
        exact (hsettles.line_over hreach.stacked hin rfl).resolve_left (List.cons_ne_nil _ _)
  exact Option.some.inj hhead

theorem not_blank_or_lineOver (h : lexer.Visits text state (c :: s))
    (hmark : Marked (c :: s) (lexer.step state c s).rest ∨
      (lexer.step state c s).state.nesting.inCode = false) :
    ¬ Blank (lastLine (before text (lexer.step state c s).rest)) ∨
      LineOver (lexer.step state c s).state (lexer.step state c s).rest := by
  rcases hmark with (hnil | hline | hseen) | hin
  · exact .inr (.inl hnil)
  · exact .inr (.inr (.inl hline))
  · rw [h.before_step]
    exact .inl fun hblank => hseen (hblank.of_suffix (lastLine_suffix_append _ _))
  · exact .inr (.inr (.inr hin))

/-- Where the line was not begun by white space alone, something can be seen on it, or there will be
no token on it any more. -/
theorem idle_or_not_blank (h : lexer.Visits text state s) :
    Idle text false state s ∨ ¬ Blank (lastLine (before text s)) ∨ LineOver state s := by
  induction h with
  | start => exact .inl .start
  | @step state c s h ih =>
      rcases look_step_cases state c s with
        ⟨found, nesting, hlook⟩ | ⟨nesting, hlook, hc⟩ | ⟨nesting, hlook, hc⟩
      · have hstep : lexer.step state c s = _ := step_of_piece hlook
        have hquotes : QuotesSeen state.nesting :=
          fun frame hmem => (fStrings_of_visits h frame hmem).quoted.has_whitespace
        refine .inr (not_blank_or_lineOver h ?_)
        rw [hstep]
        exact marked_of_look hlook hquotes
      · by_cases hline : '\n' ∈ (c :: s).takeWhile AsciiSet.whitespace.has
        · exact .inl (.newline h hlook hc hline)
        · -- White space without a newline changes nothing, and it is not what a line ends with.
          rcases ih with hidle | hseen | hover
          · exact .inl (hidle.space hlook hc)
          · refine .inr (.inl fun hblank => hseen ?_)
            rw [h.before_step, before_step_of_whitespace hlook hc, lastLine_append _ hline] at hblank
            exact (blank_append.1 hblank).1
          · rw [hover.head_eq (reachable_of_visits h) hlook,
              List.takeWhile_cons_of_pos (by decide)] at hline
            exact absurd List.mem_cons_self hline
      · have hstep : lexer.step state c s = _ := step_of_token hlook hc
        refine .inr (not_blank_or_lineOver h ?_)
        rw [hstep]
        exact marked_of_scanToken state nesting hc s

theorem operators_scan_at (hname : atWord .identStart s = true) :
    operators.scan ('@' :: s) = some ⟨.operator, s⟩ := by
  have hlong : ∀ op ∈ operators.three, op.toList ≠ [] ∧ op.toList.head? ≠ some '@' := by decide
  have hshort : ∀ op ∈ operators.two,
      op.toList ≠ [] ∧ (op.toList.head? = some '@' → op.toList = ['@', '=']) := by decide
  have hhead {w : List Char} (hne : w ≠ []) (hfront : w <+: '@' :: s) : w.head? = some '@' := by
    obtain ⟨d, t, rfl⟩ := List.exists_cons_of_ne_nil hne
    exact congrArg some (List.cons_prefix_cons.1 hfront).1
  have hthree : ¬ OperatorSyntax.matchesAny operators.three ('@' :: s) = true := by
    intro hany
    obtain ⟨op, hmem, hfront⟩ := OperatorSyntax.exists_of_matchesAny hany
    exact (hlong op hmem).2 (hhead (hlong op hmem).1 hfront)
  have htwo : ¬ OperatorSyntax.matchesAny operators.two ('@' :: s) = true := by
    intro hany
    obtain ⟨op, hmem, hfront⟩ := OperatorSyntax.exists_of_matchesAny hany
    rw [(hshort op hmem).2 (hhead (hshort op hmem).1 hfront), List.cons_prefix_cons] at hfront
    obtain ⟨t, ht⟩ := hfront.2
    rw [← ht] at hname
    cases hname
  have hfour : ¬ OperatorSyntax.matchesAny operators.four ('@' :: s) = true := Bool.false_ne_true
  rw [OperatorSyntax.scan, OperatorSyntax.length?.eq_def, if_neg hfour, if_neg hthree, if_neg htwo]
  show some (⟨.operator, dropBytes 1 ('@' :: s)⟩ : Match) = _
  rw [dropBytes_cons_of_ascii (by decide) Nat.one_pos, dropBytes_zero]

theorem scanToken_at (state : State) (nesting : Nesting) (hname : atWord .identStart s = true) :
    (scanToken state nesting '@' s).1 =
      if state.lineStart = true then ⟨.nameDecorator, behindDotted s⟩ else ⟨.operator, s⟩ := by
  have hhash : '@' ≠ '#' := by decide
  have hleading : Rule.firstOf (leading state) ('@' :: s) = none := by
    rw [leading, Rule.firstOf_cons_of_none (scanHashbang_of_ne hhash _ _),
      Rule.firstOf_cons_of_none (CommentSyntax.scan_cons_eq_none (by decide) hhash),
      Rule.firstOf_nil]
  have hopening : '@' ∉ strings.openings := by decide
  have hopen := fString?_eq_none (@StringSyntax.affix?_cons_eq_none strings '@' s hopening)
  have htrailing : Rule.firstOf (trailing state) ('@' :: s) = some
      (if state.lineStart = true then ⟨.nameDecorator, behindDotted s⟩ else ⟨.operator, s⟩) := by
    rw [trailing, Rule.firstOf_cons_of_none (StringSyntax.scan_cons_eq_none hopening),
      Rule.firstOf_cons_of_none (NumberSyntax.scan_cons_eq_none (by decide))]
    by_cases hline : state.lineStart = true
    · rw [if_pos hline]
      exact Rule.firstOf_cons_of_some (if_pos ⟨rfl, hline, hname⟩)
    · rw [if_neg hline, Rule.firstOf_cons_of_none (if_neg fun h => hline h.2.1),
        Rule.firstOf_cons_of_none (readsWords.declines (by decide) s)]
      exact Rule.firstOf_cons_of_some (operators_scan_at hname)
  simp only [scanToken, hleading, hopen, Lexer.scanOr, htrailing, Option.getD_some]

/-- In code, an at sign with a word behind it is a decorator if nothing but white space and pieces
of strings was read since the line began, and an operator else. There were no pieces exactly if
there is nothing but white space in front of it on its line. -/
theorem decorator_iff_idle (h : lexer.Visits text state ('@' :: s))
    (hcode : (state.nesting.look ('@' :: s)).1 = none) (hname : atWord .identStart s = true) :
    ((lexer.step state '@' s).kind = .nameDecorator ↔ ∃ pieces, Idle text pieces state ('@' :: s)) ∧
      (Idle text false state ('@' :: s) ↔ Blank (lastLine (before text ('@' :: s)))) ∧
      ((lexer.step state '@' s).kind ≠ .nameDecorator →
        (lexer.step state '@' s).kind = .operator ∧ (lexer.step state '@' s).rest = s) := by
  obtain ⟨nesting, hlook⟩ : ∃ nesting, state.nesting.look ('@' :: s) = (none, nesting) :=
    ⟨_, Prod.ext hcode rfl⟩
  have hstep : lexer.step state '@' s = _ := step_of_token hlook (by decide)
  have hscan := scanToken_at state nesting hname
  have hblank : Idle text false state ('@' :: s) ↔ Blank (lastLine (before text ('@' :: s))) := by
    constructor
    · exact Idle.blank
    · intro hblank
      rcases idle_or_not_blank h with hidle | hseen | hover
      · exact hidle
      · exact absurd hblank hseen
      · exact absurd (hover.head_eq (reachable_of_visits h) hlook) (by decide)
  rw [hstep, hscan]
  by_cases hline : state.lineStart = true
  · rw [if_pos hline]
    refine ⟨⟨fun _ => exists_idle_of_lineStart h hline, fun _ => rfl⟩, hblank, fun hne => ?_⟩
    exact absurd rfl hne
  · rw [if_neg hline]
    refine ⟨⟨fun hkind => ?_, fun ⟨_, hidle⟩ => ?_⟩, hblank, fun _ => ⟨rfl, rfl⟩⟩
    · cases hkind
    · exact absurd hidle.lineStart hline

/-- White space in front is no matter. -/
theorem decorator_iff_idle_indented :
    lexer.Visits "x\n\t@y".toList ⟨false, true, []⟩ ['@', 'y'] ∧
      (look [] ['@', 'y']).1 = none ∧ atWord .identStart ['y'] = true ∧
      (lexer.step ⟨false, true, []⟩ '@' ['y']).kind = .nameDecorator := by
  have hname : lexer.Visits "x\n\t@y".toList ⟨false, false, []⟩ ['\n', '\t', '@', 'y'] :=
    .of_step_eq .start (by decide +kernel) (by decide +kernel)
  have hspace : lexer.Visits "x\n\t@y".toList ⟨false, true, []⟩ ['@', 'y'] :=
    .of_step_eq hname (by decide +kernel) (by decide +kernel)
  have hblank : Blank (lastLine (before "x\n\t@y".toList ['@', 'y'])) := by
    have hline : lastLine (before "x\n\t@y".toList ['@', 'y']) = ['\t'] := by decide
    rw [hline]
    exact List.forall_mem_singleton.2 rfl
  have h := decorator_iff_idle hspace rfl rfl
  exact ⟨hspace, rfl, rfl, h.1.2 ⟨false, h.2.1.2 hblank⟩⟩

/-- The end of a string that was open when the line began is. -/
theorem decorator_behind_quotes :
    lexer.Visits "f'''\x7b\n\x7d'''@x".toList ⟨false, true, []⟩ ['@', 'x'] ∧
      (look [] ['@', 'x']).1 = none ∧ atWord .identStart ['x'] = true ∧
      (lexer.step ⟨false, true, []⟩ '@' ['x']).kind = .nameDecorator ∧
      ¬ Blank (lastLine (before "f'''\x7b\n\x7d'''@x".toList ['@', 'x'])) ∧
      lexer.lex "f'''\x7b\n\x7d'''@x".toList =
        [⟨.string, "f'''".toList⟩, ⟨.stringInterpol, ['\x7b']⟩, ⟨.whitespace, ['\n']⟩,
          ⟨.stringInterpol, ['\x7d']⟩, ⟨.string, "'''".toList⟩,
          ⟨.nameDecorator, ['@', 'x']⟩] := by
  let style : TemplateSyntax := { quote := '\'', triple := true, kind := .string }
  have hquote : lexer.Visits "f'''\x7b\n\x7d'''@x".toList ⟨false, false, [.text style]⟩
      "\x7b\n\x7d'''@x".toList :=
    .of_step_eq .start (by decide +kernel) (by decide +kernel)
  have hfield : lexer.Visits "f'''\x7b\n\x7d'''@x".toList
      ⟨false, false, [.field style 0, .text style]⟩ "\n\x7d'''@x".toList :=
    .of_step_eq hquote (by decide +kernel) (by decide +kernel)
  have hspace : lexer.Visits "f'''\x7b\n\x7d'''@x".toList
      ⟨false, true, [.field style 0, .text style]⟩ "\x7d'''@x".toList :=
    .of_step_eq hfield (by decide +kernel) (by decide +kernel)
  have hclosed : lexer.Visits "f'''\x7b\n\x7d'''@x".toList ⟨false, true, [.text style]⟩
      "'''@x".toList :=
    .of_step_eq hspace (by decide +kernel) (by decide +kernel)
  have hend : lexer.Visits "f'''\x7b\n\x7d'''@x".toList ⟨false, true, []⟩ ['@', 'x'] :=
    .of_step_eq hclosed (by decide +kernel) (by decide +kernel)
  refine ⟨hend, rfl, rfl, by decide +kernel, fun hblank => ?_, by decide +kernel⟩
  exact absurd (hblank '\x7d' (by decide)) (by decide)
end Python

end Highlight
