import Highlight.Proofs.TemplateGrammar

/-!
# The stack of open strings

Literal text is entered from code, and a field or a format specification belongs to the string it
stands in. So not every stack of frames comes up: text lies at the bottom or on a field, and a field
or a specification lies on text or on a specification of its own string. Every way to move a scan
keeps this, and with it the newline rule ends where it should. What it leaves is all that may not
span lines, and it stops at a frame that may; the frame above that one belonged to another string,
so it was literal text, and what literal text lies on is code.

That a scan outside of code gets on is another matter. A frame that finds nothing at the front of a
text is left, and this is right only if its text ends there. A run of literal text that stops in
front of a field without a character taken would have to wait for the field, and if the field were
then not seen to open, the scan would wait forever. It is seen, because a run stops for a field only
where one opens.
-/

namespace Highlight

namespace TemplateSyntax

/-- A run of literal text that stops for a field stops where one opens. -/
theorem exists_opener?_of_text {style : TemplateSyntax} {s : List Char}
    (h : (style.text s).1 = .field) : ∃ code, style.opener? (style.text s).2 = some code := by
  revert h
  refine JumpScan.run_induction
    (motive := fun _ (answer : TextEnd × List Char) =>
      answer.1 = .field → ∃ code, style.opener? answer.2 = some code)
    ?_ (fun _ _ _ _ ih => ih) (fun _ c s answer hstop hlook hfield => ?_) () s
  · rintro ⟨⟩
  -- Where a run stops for a field, the character is none of the others that it looks at.
  simp only [textScan] at hlook
  split_ifs at hlook with hline hescape hquote htriple hdollar hbrace hbrace
  · cases hlook
    cases hfield
  · split at hlook
    · cases hlook
      cases hfield
    · cases hlook
  · cases hlook
    cases hfield
  all_goals cases hlook
  all_goals
    have hopener : c = style.opener := by
      simpa [textScan, stops, hline, hescape, hquote] using hstop
  · obtain ⟨code, rfl⟩ := List.head?_eq_some_iff.1 hbrace
    refine ⟨code, ?_⟩
    rw [opener?, if_neg (not_not_intro hopener), if_pos hdollar]
    exact isPrefixOf?_append ['\x7b'] code
  · refine ⟨s, ?_⟩
    rw [opener?, if_neg (not_not_intro hopener), if_neg hdollar, if_neg hbrace]

end TemplateSyntax

namespace Frame

/-- That a text in front of which a frame stands has nothing more for the frame: no delimiter of a
field, and no character of a run, which has therefore ended for good. -/
def Ended : Frame → List Char → Prop
  | .text style, s => style.opener? s = none ∧ ∃ stop, stop ≠ .field ∧ style.text s = (stop, s)
  | .spec style, s => s.head? ≠ some '\x7b' ∧ s.head? ≠ some '\x7d' ∧ style.specRest s = s
  | .field .., _ => False

variable {frame : Frame} {frames : List Frame} {found : Match} {s : List Char}

theorem run_eq_none {kind : Kind} {after : List Frame} {rest : List Char} (hs : rest <:+ s)
    (h : run kind after s rest = none) : rest = s := by
  rw [run] at h
  split at h
  · cases h
  · next hlt =>
      have hle := hs.length_le
      exact hs.eq_of_length (by omega)

theorem eq_of_run {kind : Kind} {after : List Frame} {rest : List Char} {r : Match × List Frame}
    (h : run kind after s rest = some r) : r = (⟨kind, rest⟩, after) := by
  rw [run] at h
  split at h
  · exact (Option.some.inj h).symm
  · cases h

/-- A frame outside of code is not left before it has ended. -/
theorem ended_of_scan (hcode : frame.isCode = false) (h : frame.scan s = none) :
    frame.Ended s := by
  cases frame with
  | field style depth => cases hcode
  | text style =>
      rw [scan] at h
      split at h
      · cases h
      · next hnone =>
          have hrest := run_eq_none (TemplateSyntax.text_suffix style s) h
          refine ⟨hnone, (style.text s).1, ?_, Prod.ext rfl hrest⟩
          intro hfield
          obtain ⟨code, hsome⟩ := TemplateSyntax.exists_opener?_of_text hfield
          rw [hrest, hnone] at hsome
          cases hsome
  | spec style =>
      rw [scan.eq_def] at h
      dsimp only at h
      split at h
      · cases h
      · cases h
      · next hopen hclose =>
          have hrest := run_eq_none (TemplateSyntax.specRest_suffix style s) h
          refine ⟨?_, ?_, hrest⟩
          · intro hhead
            obtain ⟨t, rfl⟩ := List.head?_eq_some_iff.1 hhead
            exact hopen t rfl
          · intro hhead
            obtain ⟨t, rfl⟩ := List.head?_eq_some_iff.1 hhead
            exact hclose t rfl

/-- A frame that is not left at once is gone behind the next piece, or stands there still, with a
field on it perhaps. -/
theorem frames_of_scan (h : frame.scan s = some (found, frames)) :
    frames = [] ∨ frames = [frame] ∨ frames = [.field frame.style 0, frame] := by
  cases frame with
  | field style depth => cases h
  | text style =>
      rw [scan] at h
      split at h
      · cases h
        exact .inr (.inr rfl)
      · have hafter : frames = _ := congrArg Prod.snd (eq_of_run h)
        split at hafter
        · exact .inr (.inl hafter)
        · exact .inl hafter
  | spec style =>
      rw [scan.eq_def] at h
      dsimp only at h
      split at h
      · cases h
        exact .inr (.inr rfl)
      · cases h
        exact .inl rfl
      · exact .inr (.inl (congrArg Prod.snd (eq_of_run h)))

theorem exists_of_scan (h : frame.scan s = some (found, frames)) :
    ∃ piece, piece ≠ [] ∧ s = piece ++ found.rest := by
  cases s with
  | nil =>
      cases frame with
      | field style depth => cases h
      | text style => simp [scan, TemplateSyntax.opener?, run] at h
      | spec style => simp [scan, run] at h
  | cons c s =>
      obtain ⟨t, ht⟩ := scan_suffix h
      exact ⟨c :: t, List.cons_ne_nil c t, by rw [List.cons_append, ht]⟩

/-! ## What lies on what

`Stacked` is the shape of every stack that a scan can have. There are few ways to move a scan, each
of them keeps the shape, and `Reachable` is what they lead to. So of a language it only has to be
seen that its steps are made of them. -/

/-- Whether a frame may lie directly on the frames of a stack. -/
def LiesOn : Frame → Nesting → Prop
  | .text _, outer => outer = [] ∨ ∃ style depth below, outer = .field style depth :: below
  | .field style _, outer | .spec style, outer =>
    ∃ below, outer = .text style :: below ∨ outer = .spec style :: below

theorem inCode_of_liesOn {style : TemplateSyntax} {outer : Nesting}
    (h : LiesOn (.text style) outer) : outer.inCode = true := by
  rcases h with rfl | ⟨style', depth, below, rfl⟩ <;> rfl

theorem liesOn_of_inCode (style : TemplateSyntax) {outer : Nesting} (h : outer.inCode = true) :
    LiesOn (.text style) outer := by
  cases outer with
  | nil => exact .inl rfl
  | cons frame below =>
      cases frame with
      | field style' depth => exact .inr ⟨style', depth, below, rfl⟩
      | text style' => cases h
      | spec style' => cases h

end Frame

namespace Nesting

variable {frame : Frame} {outer nesting nesting' : Nesting} {s rest : List Char}

/-- Whether every frame of a stack lies on a frame that it may lie on. -/
def Stacked (nesting : Nesting) : Prop :=
  ∀ frame outer, frame :: outer <:+ nesting → frame.LiesOn outer

theorem stacked_nil : Stacked [] := by
  intro frame outer h
  cases List.suffix_nil.1 h

theorem stacked_cons : Stacked (frame :: outer) ↔ frame.LiesOn outer ∧ Stacked outer := by
  constructor
  · intro h
    exact ⟨h frame outer List.suffix_rfl, fun f o ho => h f o (ho.trans (List.suffix_cons ..))⟩
  · rintro ⟨hframe, houter⟩ f o ho
    rcases List.suffix_cons_iff.1 ho with heq | ho
    · cases heq
      exact hframe
    · exact houter f o ho

theorem Stacked.of_suffix (h : Stacked nesting) (hs : outer <:+ nesting) : Stacked outer :=
  fun frame below hb => h frame below (hb.trans hs)

theorem leaveLine_suffix (nesting : Nesting) : leaveLine nesting <:+ nesting :=
  List.dropWhile_suffix _

/-- The newline rule leaves the frames of single lines down to one that the scan is in the code of.
Stated for any stack whose first frame goes if it is not code. -/
theorem Stacked.inCode_leaveLine (h : Stacked nesting)
    (hin : nesting.inCode = true ∨ ∃ frame ∈ nesting.head?, frame.style.singleLine = true) :
    nesting.leaveLine.inCode = true := by
  induction nesting with
  | nil => rfl
  | cons frame outer ih =>
      obtain ⟨hframe, houter⟩ := stacked_cons.1 h
      by_cases hline : frame.style.singleLine = true
      · have hleave : leaveLine (frame :: outer) = leaveLine outer := by
          rw [leaveLine, List.dropWhile_cons, if_pos hline, leaveLine]
        rw [hleave]
        refine ih houter ?_
        cases frame with
        | text style => exact .inl (Frame.inCode_of_liesOn hframe)
        | field style depth =>
            obtain ⟨below, rfl | rfl⟩ := hframe
            · exact .inr ⟨_, rfl, hline⟩
            · exact .inr ⟨_, rfl, hline⟩
        | spec style =>
            obtain ⟨below, rfl | rfl⟩ := hframe
            · exact .inr ⟨_, rfl, hline⟩
            · exact .inr ⟨_, rfl, hline⟩
      · have hleave : leaveLine (frame :: outer) = frame :: outer := by
          rw [leaveLine, List.dropWhile_cons, if_neg hline]
        rw [hleave]
        rcases hin with hin | ⟨f, hf, hf'⟩
        · exact hin
        · cases hf
          exact absurd hf' hline

theorem Stacked.frames_of_scan {frames : List Frame} {found : Match}
    (h : Stacked (frame :: outer)) (hscan : frame.scan s = some (found, frames)) :
    Stacked (frames ++ outer) := by
  have houter := (stacked_cons.1 h).2
  rcases Frame.frames_of_scan hscan with rfl | rfl | rfl
  · exact houter
  · exact h
  · refine stacked_cons.2 ⟨?_, h⟩
    cases frame with
    | text style => exact ⟨outer, .inl rfl⟩
    | spec style => exact ⟨outer, .inr rfl⟩
    | field style depth => cases hscan

theorem Stacked.literal (h : Stacked nesting) (s : List Char) :
    Stacked (nesting.literal s).2 := by
  cases nesting with
  | nil => exact h
  | cons frame outer =>
      rw [Nesting.literal]
      split
      · exact h
      · split
        · next found frames hscan => exact h.frames_of_scan hscan
        · exact (stacked_cons.1 h).2

theorem Stacked.enter (h : Stacked nesting) (hin : nesting.inCode = true)
    (style : TemplateSyntax) (body : List Char) : Stacked (nesting.enter style body).2 := by
  rw [Nesting.enter]
  dsimp only
  split
  · exact stacked_cons.2 ⟨Frame.liesOn_of_inCode style hin, h⟩
  · exact h

/-- Behind a look at code the field has another count of brackets, or it is closed, or a format
specification stands in its place, or a newline has ended what it ends. -/
theorem delimiter_cases (style : TemplateSyntax) (depth : Nat) (outer : Nesting) (s : List Char) :
    (∃ depth', delimiter (.field style depth :: outer) s = (none, .field style depth' :: outer)) ∨
    (∃ found, delimiter (.field style depth :: outer) s = (some found, outer)) ∨
    (∃ found, delimiter (.field style depth :: outer) s = (some found, .spec style :: outer)) ∨
    delimiter (.field style depth :: outer) s =
      (none, leaveLine (.field style depth :: outer)) := by
  cases s with
  | nil => exact .inl ⟨depth, rfl⟩
  | cons c s =>
      simp only [delimiter]
      repeat' split
      all_goals first
        | exact .inl ⟨_, rfl⟩
        | exact .inr (.inl ⟨_, rfl⟩)
        | exact .inr (.inr (.inl ⟨_, rfl⟩))
        | exact .inr (.inr (.inr rfl))

theorem Stacked.delimiter (h : Stacked nesting) (hin : nesting.inCode = true) (s : List Char) :
    Stacked (nesting.delimiter s).2 ∧
      ((nesting.delimiter s).1 = none → (nesting.delimiter s).2.inCode = true) := by
  cases nesting with
  | nil => exact ⟨h, fun _ => rfl⟩
  | cons frame outer =>
      cases frame with
      | text style => cases hin
      | spec style => cases hin
      | field style depth =>
          obtain ⟨hfield, houter⟩ := stacked_cons.1 h
          rcases delimiter_cases style depth outer s with
            ⟨depth', heq⟩ | ⟨found, heq⟩ | ⟨found, heq⟩ | heq
          · rw [heq]
            exact ⟨stacked_cons.2 ⟨hfield, houter⟩, fun _ => rfl⟩
          · rw [heq]
            exact ⟨houter, nofun⟩
          · rw [heq]
            exact ⟨stacked_cons.2 ⟨hfield, houter⟩, nofun⟩
          · rw [heq]
            exact ⟨h.of_suffix (leaveLine_suffix _), fun _ => h.inCode_leaveLine (.inl rfl)⟩

/-- Where a scan is behind what was found at the front of a text. -/
def behindFound (found : Option Match) (s : List Char) : List Char :=
  found.elim s Match.rest

/-- What a language may do to a scan of a text, from its start on. In code it may pass over
characters, enter a string behind its opening quotes, or have a character looked at. Anywhere else
it may ask for the next piece of the string. -/
inductive Reachable : Nesting → List Char → Prop where
  | start (text : List Char) : Reachable [] text
  | advance {nesting : Nesting} {s rest : List Char} (h : Reachable nesting s)
      (hin : nesting.inCode = true) (hs : rest <:+ s) : Reachable nesting rest
  | enter {nesting : Nesting} {s body : List Char} {style : TemplateSyntax}
      (h : Reachable nesting s) (hin : nesting.inCode = true) (hq : style.Quoted)
      (hs : body <:+ s) :
      Reachable (nesting.enter style body).2 (nesting.enter style body).1.rest
  | delimiter {nesting : Nesting} {s : List Char} (h : Reachable nesting s)
      (hin : nesting.inCode = true) :
      Reachable (nesting.delimiter s).2 (behindFound (nesting.delimiter s).1 s)
  | literal {nesting : Nesting} {s : List Char} (h : Reachable nesting s)
      (hin : nesting.inCode = false) :
      Reachable (nesting.literal s).2 (behindFound (nesting.literal s).1 s)

theorem Reachable.stacked (h : Reachable nesting s) : Stacked nesting := by
  induction h with
  | start => exact stacked_nil
  | advance h hin hs ih => exact ih
  | enter h hin hq hs ih => exact ih.enter hin _ _
  | delimiter h hin ih => exact (ih.delimiter hin _).1
  | literal h hin ih => exact ih.literal _

/-- Outside of code there is a piece, and it takes at least a character. Or there is none, and then
the innermost frame has ended and is left. -/
theorem literal_cases (hin : nesting.inCode = false) (s : List Char) :
    (∃ found nesting' piece, nesting.literal s = (some found, nesting') ∧ piece ≠ [] ∧
      s = piece ++ found.rest) ∨
    ∃ frame outer, nesting = frame :: outer ∧ nesting.literal s = (none, outer) ∧
      frame.Ended s := by
  cases nesting with
  | nil => cases hin
  | cons frame outer =>
      have hcode : frame.isCode = false := hin
      have hnot : ¬ frame.isCode = true := by
        rw [hcode]
        decide
      rw [literal, if_neg hnot]
      cases hscan : frame.scan s with
      | none => exact .inr ⟨frame, outer, rfl, rfl, Frame.ended_of_scan hcode hscan⟩
      | some r =>
          obtain ⟨piece, hne, heq⟩ := Frame.exists_of_scan hscan
          exact .inl ⟨r.1, _, piece, rfl, hne, heq⟩

/-- That a scan which asks for the next piece of a string, and asks again as long as it gets none
and is not in code, comes to an end, and what it has then. -/
inductive Settles : Nesting → List Char → Option Match × Nesting → Prop where
  | code {nesting : Nesting} {s : List Char} (hin : nesting.inCode = true) :
      Settles nesting s (none, nesting)
  | piece {nesting nesting' : Nesting} {s : List Char} {found : Match}
      (hin : nesting.inCode = false) (h : nesting.literal s = (some found, nesting')) :
      Settles nesting s (some found, nesting')
  | again {nesting nesting' : Nesting} {s : List Char} {r : Option Match × Nesting}
      (hin : nesting.inCode = false) (h : nesting.literal s = (none, nesting'))
      (more : Settles nesting' s r) : Settles nesting s r

theorem settles_settle (nesting : Nesting) (s : List Char) :
    Settles nesting s (nesting.settle s) := by
  induction nesting with
  | nil => exact .code rfl
  | cons frame outer ih =>
      rw [settle]
      by_cases hcode : frame.isCode = true
      · rw [if_pos hcode]
        exact .code hcode
      · have hin : inCode (frame :: outer) = false := Bool.not_eq_true _ ▸ hcode
        rw [if_neg hcode]
        cases hscan : frame.scan s with
        | none => exact .again hin (by rw [literal, if_neg hcode, hscan]) ih
        | some r => exact .piece hin (by rw [literal, if_neg hcode, hscan])

theorem Reachable.of_settles (h : Reachable nesting s) {r : Option Match × Nesting}
    (hr : Settles nesting s r) :
    Reachable r.2 (behindFound r.1 s) ∧ (r.1 = none → r.2.inCode = true) := by
  induction hr with
  | code hin => exact ⟨h, fun _ => hin⟩
  | piece hin heq =>
      have hnext := h.literal hin
      rw [heq] at hnext
      exact ⟨hnext, nofun⟩
  | again hin heq more ih =>
      have hnext := h.literal hin
      rw [heq] at hnext
      exact ih hnext

/-! ## The languages

What a language does in a step is to settle, to have a character looked at, and only then to scan
code. Each of the two answers with a lexeme or leaves the scan in code. -/

variable {found : Match}

theorem Reachable.of_settle_some (h : Reachable nesting s)
    (heq : nesting.settle s = (some found, nesting')) : Reachable nesting' found.rest := by
  have hnext := (h.of_settles (settles_settle nesting s)).1
  rw [heq] at hnext
  exact hnext

theorem Reachable.of_settle_none (h : Reachable nesting s)
    (heq : nesting.settle s = (none, nesting')) :
    Reachable nesting' s ∧ nesting'.inCode = true := by
  have hnext := h.of_settles (settles_settle nesting s)
  rw [heq] at hnext
  exact ⟨hnext.1, hnext.2 rfl⟩

theorem Reachable.of_delimiter_some (h : Reachable nesting s) (hin : nesting.inCode = true)
    (heq : nesting.delimiter s = (some found, nesting')) : Reachable nesting' found.rest := by
  have hnext := h.delimiter hin
  rw [heq] at hnext
  exact hnext

theorem Reachable.of_delimiter_none (h : Reachable nesting s) (hin : nesting.inCode = true)
    (heq : nesting.delimiter s = (none, nesting')) :
    Reachable nesting' s ∧ nesting'.inCode = true := by
  have hnext := h.delimiter hin
  have hcode := (h.stacked.delimiter hin s).2
  rw [heq] at hnext hcode
  exact ⟨hnext, hcode rfl⟩

end Nesting

namespace Python

open Nesting

theorem reachable_scanToken (state : State) {nesting : Nesting} {c : Char} {s : List Char}
    (h : Reachable nesting (c :: s)) (hin : nesting.inCode = true) :
    Reachable (scanToken state nesting c s).2 (scanToken state nesting c s).1.rest := by
  have hs := (scanToken_suffix state nesting c s).trans (List.suffix_cons c s)
  unfold scanToken at hs ⊢
  split
  · next found hfound =>
      rw [hfound] at hs
      exact h.advance hin hs
  · next hnone =>
      rw [hnone] at hs
      dsimp only at hs
      split
      · next style body hopen =>
          have hbody := (fString?_suffix hopen).trans (List.suffix_cons c s)
          exact h.enter hin (fString?_eq_some hopen).1 hbody
      · next hopen =>
          rw [hopen] at hs
          exact h.advance hin hs

theorem reachable_step (state : State) {c : Char} {s : List Char}
    (h : Reachable state.nesting (c :: s)) :
    Reachable (step state c s).state.nesting (step state c s).rest := by
  unfold step
  split
  · next hsettle => exact h.of_settle_some hsettle
  · next nesting hsettle =>
      obtain ⟨hcode, hin⟩ := h.of_settle_none hsettle
      split
      · next hlook => exact hcode.of_delimiter_some hin hlook
      · next nesting' hlook =>
          obtain ⟨hcode', hin'⟩ := hcode.of_delimiter_none hin hlook
          unfold stepCode
          split
          · next found hspace =>
              have hs := Rule.consumes_run _ _ c s found hspace
              exact hcode'.advance hin' (hs.trans (List.suffix_cons c s))
          · exact reachable_scanToken state hcode' hin'

theorem reachable_of_visits {text s : List Char} {state : State}
    (h : lexer.Visits text state s) : Reachable state.nesting s := by
  induction h with
  | start => exact .start text
  | @step state c s h ih => exact reachable_step state ih

end Python

namespace JavaScript

open Nesting

theorem reachable_scanCode (state : State) {nesting : Nesting} {c : Char} {s : List Char}
    (h : Reachable nesting (c :: s)) (hin : nesting.inCode = true) :
    Reachable (scanCode state nesting c s).2 (scanCode state nesting c s).1.rest := by
  have hs := (scanCode_suffix state nesting c s).trans (List.suffix_cons c s)
  unfold scanCode at hs ⊢
  split
  · next found hfound =>
      rw [hfound] at hs
      exact h.advance hin hs
  · next hnone =>
      rw [hnone] at hs
      dsimp only at hs
      split
      · exact h.enter hin quoted_template (List.suffix_cons c s)
      · next hquote =>
          rw [if_neg hquote] at hs
          exact h.advance hin hs

theorem reachable_step (state : State) {c : Char} {s : List Char}
    (h : Reachable state.nesting (c :: s)) :
    Reachable (step state c s).state.nesting (step state c s).rest := by
  have hscan : Reachable (scan state c s).2 (scan state c s).1.rest := by
    unfold scan
    split
    · next hsettle => exact h.of_settle_some hsettle
    · next nesting hsettle =>
        obtain ⟨hcode, hin⟩ := h.of_settle_none hsettle
        split
        · next hlook => exact hcode.of_delimiter_some hin hlook
        · next nesting' hlook =>
            obtain ⟨hcode', hin'⟩ := hcode.of_delimiter_none hin hlook
            exact reachable_scanCode state hcode' hin'
  exact hscan

theorem reachable_of_visits {text s : List Char} {state : State}
    (h : lexer.Visits text state s) : Reachable state.nesting s := by
  induction h with
  | start => exact .start text
  | @step state c s h ih => exact reachable_step state ih

end JavaScript

namespace Nesting

/-- Wherever a language may have brought a scan, the frames lie on each other as they should, a scan
outside of code takes a character or leaves a frame that has ended, the newline rule ends in code,
and asking for pieces as long as there are none comes to an end. Whatever text the two languages
with such strings read, they stay within this. -/
theorem progress_of_reachable :
    (∀ nesting s, Reachable nesting s →
      nesting.Stacked ∧
      (nesting.inCode = false →
        (∃ found nesting' piece, nesting.literal s = (some found, nesting') ∧ piece ≠ [] ∧
          s = piece ++ found.rest) ∨
        ∃ frame outer, nesting = frame :: outer ∧ nesting.literal s = (none, outer) ∧
          frame.Ended s) ∧
      (nesting.inCode = true → nesting.leaveLine.inCode = true ∧
        ((nesting.delimiter s).1 = none → (nesting.delimiter s).2.inCode = true)) ∧
      Settles nesting s (nesting.settle s)) ∧
    (∀ text state s, Python.lexer.Visits text state s → Reachable state.nesting s) ∧
    (∀ text state s, JavaScript.lexer.Visits text state s → Reachable state.nesting s) := by
  refine ⟨?_, fun _ _ _ => Python.reachable_of_visits, fun _ _ _ => JavaScript.reachable_of_visits⟩
  intro nesting s h
  have hstacked := h.stacked
  refine ⟨hstacked, fun hin => literal_cases hin s, ?_, settles_settle nesting s⟩
  intro hin
  exact ⟨hstacked.inCode_leaveLine (.inl hin), (hstacked.delimiter hin s).2⟩

/-- Behind the quote of an f-string whose text begins with a field, the field is the next piece. -/
theorem progress_of_reachable_fString :
    let style : TemplateSyntax := { quote := '\'', kind := .string }
    Reachable [.text style] ['\x7b', 'x'] ∧ Stacked [.text style] ∧
      Settles [.text style] ['\x7b', 'x']
        (some ⟨.stringInterpol, ['x']⟩, [.field style 0, .text style]) := by
  intro style
  have htext : style.text ['\x7b', 'x'] = (.field, ['\x7b', 'x']) :=
    @TemplateSyntax.text_fieldOpener style (.inl rfl) ['x'] fun _ => by decide
  have henter : enter [] style ['\x7b', 'x'] = (⟨.string, ['\x7b', 'x']⟩, [.text style]) := by
    rw [enter, htext]
    rfl
  have hreach : Reachable [.text style] ['\x7b', 'x'] := by
    have h := @Reachable.enter _ _ ['\x7b', 'x'] style (.start ['f', '\'', '\x7b', 'x']) rfl
      (.inl rfl) ⟨['f', '\''], rfl⟩
    rw [henter] at h
    exact h
  obtain ⟨hstacked, -, -, hsettles⟩ := progress_of_reachable.1 _ _ hreach
  exact ⟨hreach, hstacked, hsettles⟩

end Nesting

end Highlight
