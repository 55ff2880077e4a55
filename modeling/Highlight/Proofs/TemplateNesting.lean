import Highlight.Proofs.TemplateGrammar

/-!
# Strings nest in fields and fields in strings

A language that scans strings with embedded code is told by the stack of frames when it is its turn.
`Host` is such a language with everything left out that is not about the strings: it knows where
they open, and of code it takes one character at a time, behind a look at it that may close the
field or start its format specification.

That a host reports what the grammar says, and has the stack back that it began with, is proved for
all parts of a string in one induction. A part begins with its own frame on top and ends with the
frame gone, whatever is below, and this is what lets the statement pass from a string to its fields
and from a field to the strings in it. On a single line there is one more thing to see: a blank in
the code of a field is looked at together with all blanks behind it, and those end in the field.
-/

namespace Highlight

/-- Where a host stands. -/
structure Host where
  nesting : Nesting
  rest : List Char
  deriving DecidableEq, Repr

namespace Host

/-- A lexeme that was found at the front of a text, and where the host stands behind it. -/
def take (s : List Char) (found : Match) (nesting : Nesting) : List Report × Host :=
  ([.lexeme ⟨found.kind, before s found.rest⟩], ⟨nesting, found.rest⟩)

/-- One step. In code the nesting looks at the character first, then the string that may open there
is entered, and otherwise the character is code. Anywhere else the next piece of the string is
taken. -/
def step (openers : Openers) (host : Host) : List Report × Host :=
  match host.rest with
  | [] => ([], host)
  | c :: s =>
    if host.nesting.inCode then
      match host.nesting.delimiter (c :: s) with
      | (some found, nesting) => take (c :: s) found nesting
      | (none, nesting) =>
        match openers (c :: s) with
        | some (style, body) =>
          let (found, nesting) := nesting.enter style body
          take (c :: s) found nesting
        | none => ([.code c], ⟨nesting, s⟩)
    else
      match host.nesting.literal (c :: s) with
      | (some found, nesting) => take (c :: s) found nesting
      | (none, nesting) => ([], ⟨nesting, c :: s⟩)

/-- A number of steps. -/
def run (openers : Openers) : Nat → Host → List Report × Host
  | 0, host => ([], host)
  | n + 1, host =>
    let (reports, next) := host.step openers
    let (more, last) := run openers n next
    (reports ++ more, last)

variable {openers : Openers} {nesting nesting' outer : Nesting} {frame : Frame}
  {frames : List Frame} {found : Match} {style : TemplateSyntax} {c : Char} {s body : List Char}

theorem step_literal (openers : Openers) (outer : Nesting) (hs : s ≠ []) (hcode : frame.isCode = false)
    (h : frame.scan s = some (found, frames)) :
    step openers ⟨frame :: outer, s⟩ = take s found (frames ++ outer) := by
  obtain ⟨c, t, rfl⟩ := List.exists_cons_of_ne_nil hs
  have hnot : ¬ frame.isCode = true := by
    rw [hcode]
    decide
  have hin : ¬ Nesting.inCode (frame :: outer) = true := hnot
  have hlit : Nesting.literal (frame :: outer) (c :: t) = (some found, frames ++ outer) := by
    rw [Nesting.literal, if_neg hnot, h]
  simp only [step]
  rw [if_neg hin, hlit]

theorem step_delimiter (openers : Openers) (hin : nesting.inCode = true)
    (h : nesting.delimiter (c :: s) = (some found, nesting')) :
    step openers ⟨nesting, c :: s⟩ = take (c :: s) found nesting' := by
  simp only [step]
  rw [if_pos hin, h]

theorem step_opener (hs : s ≠ []) (hin : nesting.inCode = true)
    (h : nesting.delimiter s = (none, nesting)) (hopen : openers s = some (style, body)) :
    step openers ⟨nesting, s⟩ =
      take s (nesting.enter style body).1 (nesting.enter style body).2 := by
  obtain ⟨c, t, rfl⟩ := List.exists_cons_of_ne_nil hs
  simp only [step]
  rw [if_pos hin, h]
  simp only [hopen]

theorem step_code (hin : nesting.inCode = true)
    (h : nesting.delimiter (c :: s) = (none, nesting')) (hopen : openers (c :: s) = none) :
    step openers ⟨nesting, c :: s⟩ = ([.code c], ⟨nesting', s⟩) := by
  simp only [step]
  rw [if_pos hin, h]
  simp only [hopen]

/-- That a host comes from one point to another, and what it reports on the way. -/
def Reaches (openers : Openers) (host : Host) (reports : List Report) (last : Host) : Prop :=
  ∃ n, run openers n host = (reports, last)

namespace Reaches

variable {host next last : Host} {reports more : List Report}

theorem refl (openers : Openers) (host : Host) : Reaches openers host [] host :=
  ⟨0, rfl⟩

theorem head (h : host.step openers = (reports, next)) (t : Reaches openers next more last) :
    Reaches openers host (reports ++ more) last := by
  obtain ⟨n, hn⟩ := t
  exact ⟨n + 1, by rw [run, h]; simp only [hn]⟩

theorem one (h : host.step openers = (reports, last)) : Reaches openers host reports last := by
  have hhead := head h (refl openers last)
  rw [List.append_nil] at hhead
  exact hhead

theorem trans (h : Reaches openers host reports next) (t : Reaches openers next more last) :
    Reaches openers host (reports ++ more) last := by
  obtain ⟨n, hn⟩ := h
  induction n generalizing host reports with
  | zero =>
      cases hn
      exact t
  | succ n ih =>
      rw [run] at hn
      cases hn
      rw [List.append_assoc]
      exact head rfl (ih rfl)

end Reaches

end Host

/-! ## What the nesting makes of code

Of the code in a field the nesting looks at brackets, at the colon of a specification, and on a
single line at blanks. It passes over every other character, those that a string may begin with
among them, so a string in a field opens without the field taking notice of it. -/

/-- Whether a string may begin with a character: with a letter or, without any, with a quote. -/
def Begins (c : Char) : Prop :=
  c.isAlpha = true ∨ c ∈ ['\'', '\x22', '\x60']

theorem exists_begins {style : TemplateSyntax} {letters : List Char} (hq : style.Quoted)
    (hletters : ∀ c ∈ letters, c.isAlpha) (s : List Char) :
    ∃ c t, letters ++ (style.quotes ++ s) = c :: t ∧ Begins c := by
  cases letters with
  | nil =>
      have hquote : Begins style.quote := by
        right
        rcases hq with h | h | h <;> simp [h]
      rw [TemplateSyntax.quotes]
      split
      · exact ⟨_, _, rfl, hquote⟩
      · exact ⟨_, _, rfl, hquote⟩
  | cons c letters => exact ⟨_, _, rfl, .inl (hletters c List.mem_cons_self)⟩

theorem Derives.exists_begins {openers : Openers} {word following : List Char}
    {reports : List Report} (h : Derives openers .string word following reports) :
    ∃ c t, word = c :: t ∧ Begins c := by
  cases h with
  | whole hq hletters => exact Highlight.exists_begins hq hletters _
  | opened hq hletters => exact Highlight.exists_begins hq hletters _

/-- The characters of code that a field is concerned with. -/
def reserved : List Char :=
  ['\x7b', '(', '[', '\x7d', ')', ']', ':', ' ', '\t', '\n', '\x0c', '\r']

theorem not_begins {c : Char} (h : c ∈ reserved) : ¬ Begins c := by
  have hletter : ∀ c ∈ reserved, ¬ c.isAlpha = true := by simp [reserved]
  have hquote : ∀ c ∈ reserved, c ∉ ['\'', '\x22', '\x60'] := by simp [reserved]
  rintro (halpha | hmem)
  · exact hletter c h halpha
  · exact hquote c h hmem

theorem CodeChar.of_begins (style : TemplateSyntax) (depth : Nat) {c : Char} (h : Begins c) :
    CodeChar style depth c where
  bracket hmem := not_begins (List.mem_append_left [':', ' ', '\t', '\n', '\x0c', '\r'] hmem) h
  colon hc := absurd h (not_begins (hc ▸ by decide))
  line _ hc := not_begins (hc ▸ by decide) h

namespace Nesting

theorem crossesLine_cons (c : Char) (s : List Char) :
    crossesLine (c :: s) = (blanks.has c && (c == '\n' || crossesLine s)) := by
  rw [crossesLine, List.takeWhile_cons]
  cases blanks.has c with
  | false => rfl
  | true => rw [if_pos rfl, List.contains_cons, Bool.true_and, crossesLine, BEq.comm]

theorem crossesLine_of_begins {c : Char} (h : Begins c) (s : List Char) :
    crossesLine (c :: s) = false := by
  have hblank : blanks.has c = false := by
    rw [Bool.eq_false_iff]
    intro hblank
    have hmem : c ∈ [' ', '\t', '\n', '\x0c', '\r'] := List.contains_iff_mem.1 hblank
    exact not_begins (List.mem_append_right ['\x7b', '(', '[', '\x7d', ')', ']', ':'] hmem) h
  rw [crossesLine_cons, hblank, Bool.false_and]

variable {style : TemplateSyntax} {depth : Nat} {c : Char} {s : List Char} {outer nesting : Nesting}

theorem delimiter_of_codeChar (hc : CodeChar style depth c)
    (hline : style.singleLine → crossesLine (c :: s) = false) :
    delimiter (.field style depth :: outer) (c :: s) = (none, .field style depth :: outer) := by
  have hnot : ¬ (style.singleLine = true ∧ crossesLine (c :: s) = true) := by
    rintro ⟨hs, hcross⟩
    rw [hline hs] at hcross
    cases hcross
  simp only [delimiter]
  split
  case h_7 =>
      refine if_neg ?_
      rintro ⟨hdepth, hdollar⟩
      rcases hc.colon rfl with hd | hpos
      · exact hdollar hd
      · omega
  all_goals first
    | rfl
    | exact if_neg hnot
    | exact absurd (by decide) hc.bracket

theorem delimiter_of_begins (hin : nesting.inCode = true) (hc : Begins c) :
    nesting.delimiter (c :: s) = (none, nesting) := by
  cases nesting with
  | nil => rfl
  | cons frame outer =>
      cases frame with
      | text style => cases hin
      | spec style => cases hin
      | field style depth =>
          exact delimiter_of_codeChar (.of_begins style depth hc) fun _ =>
            crossesLine_of_begins hc s

theorem delimiter_of_open (hc : c ∈ ['\x7b', '(', '[']) :
    delimiter (.field style depth :: outer) (c :: s) =
      (none, .field style (depth + 1) :: outer) := by
  simp only [List.mem_cons, List.not_mem_nil, or_false] at hc
  rcases hc with rfl | rfl | rfl <;> rfl

theorem delimiter_of_close (hc : c ∈ ['\x7d', ')', ']']) :
    delimiter (.field style (depth + 1) :: outer) (c :: s) =
      (none, .field style depth :: outer) := by
  simp only [List.mem_cons, List.not_mem_nil, or_false] at hc
  rcases hc with rfl | rfl | rfl
  · rw [delimiter, if_pos (Nat.succ_pos depth), Nat.add_sub_cancel]
  · rfl
  · rfl

theorem delimiter_colon (outer : Nesting) (s : List Char) (hd : style.dollar = false) :
    delimiter (.field style 0 :: outer) (':' :: s) =
      (some ⟨.stringInterpol, s⟩, .spec style :: outer) :=
  if_pos ⟨rfl, by rw [hd]; decide⟩

end Nesting

/-- What is left of a field on a single line does not cross it. -/
theorem Derives.crossesLine_eq_false {openers : Openers} {part : Part} {word following : List Char}
    {reports : List Report} (h : Derives openers part word following reports)
    {style : TemplateSyntax} {depth : Nat} (hpart : part = .code style depth)
    (hs : style.singleLine = true) : Nesting.crossesLine (word ++ following) = false := by
  induction h generalizing depth with
  | char hc hopen more ih =>
      cases hpart
      rw [List.cons_append, Nesting.crossesLine_cons, ih rfl,
        beq_eq_false_iff_ne.2 (hc.line hs), Bool.or_self, Bool.and_false]
  | openBracket hc =>
      simp only [List.mem_cons, List.not_mem_nil, or_false] at hc
      rcases hc with rfl | rfl | rfl <;> exact Nesting.crossesLine_cons ..
  | closeBracket hc =>
      simp only [List.mem_cons, List.not_mem_nil, or_false] at hc
      rcases hc with rfl | rfl | rfl <;> exact Nesting.crossesLine_cons ..
  | nested string =>
      obtain ⟨c, t, rfl, hc⟩ := string.exists_begins
      exact Nesting.crossesLine_of_begins hc _
  | endField => exact Nesting.crossesLine_cons ..
  | colon => exact Nesting.crossesLine_cons ..
  | _ => cases hpart

namespace Frame

variable {style : TemplateSyntax} {stop : TextEnd} {run s rest following : List Char}

theorem scan_text (hnone : style.opener? s = none) (htext : style.text s = (stop, rest))
    (hlt : rest.length < s.length) :
    scan (.text style) s =
      some (⟨style.kind, rest⟩, if stop = .field then [.text style] else []) := by
  rw [scan, hnone]
  simp only [htext]
  rw [Frame.run, if_pos hlt]

theorem scan_fieldOpener {code : List Char} (hfits : style.Fits code) :
    scan (.text style) (style.fieldOpener ++ code) =
      some (⟨.stringInterpol, code⟩, [.field style 0, .text style]) := by
  rw [scan, TemplateSyntax.opener?_fieldOpener hfits]

/-- A run at the end of a string comes with the closing quotes, and the frame is left. -/
theorem scan_closed (hq : style.Quoted) (hrun : style.Literal (style.quotes ++ rest) run) :
    scan (.text style) (run ++ (style.quotes ++ rest)) = some (⟨style.kind, rest⟩, []) := by
  have hnone : style.opener? (run ++ (style.quotes ++ rest)) = none := by
    by_cases hne : run = []
    · rw [hne]
      exact TemplateSyntax.opener?_quotes hq rest
    · exact hrun.opener?_append hq hne
  have htext : style.text (run ++ (style.quotes ++ rest)) = (.closed, rest) := by
    rw [hrun.text_append hq, TemplateSyntax.text_quotes hq]
  have hlt : rest.length < (run ++ (style.quotes ++ rest)).length := by
    have hquotes := style.length_quotes_pos
    rw [List.length_append, List.length_append]
    omega
  exact scan_text hnone htext hlt

theorem scan_run {code : List Char} (hq : style.Quoted) (hne : run ≠ []) (hfits : style.Fits code)
    (hrun : style.Literal (style.fieldOpener ++ code) run) :
    scan (.text style) (run ++ (style.fieldOpener ++ code)) =
      some (⟨style.kind, style.fieldOpener ++ code⟩, [.text style]) := by
  have htext : style.text (run ++ (style.fieldOpener ++ code)) =
      (.field, style.fieldOpener ++ code) := by
    rw [hrun.text_append hq, TemplateSyntax.text_fieldOpener hq hfits]
  have hlt : (style.fieldOpener ++ code).length < (run ++ (style.fieldOpener ++ code)).length := by
    have hpos := List.length_pos_iff.2 hne
    simp only [List.length_append]
    omega
  exact scan_text (hrun.opener?_append hq hne) htext hlt

theorem scan_specRun {c : Char} (hne : run ≠ []) (hrun : ∀ c ∈ run, style.SpecText c)
    (hc : ¬ style.SpecText c) :
    scan (.spec style) (run ++ c :: s) = some (⟨style.kind, c :: s⟩, [.spec style]) := by
  obtain ⟨d, t, rfl⟩ := List.exists_cons_of_ne_nil hne
  have hlt : (c :: s).length < (d :: t ++ c :: s).length := by
    rw [List.length_append]
    exact Nat.lt_add_of_pos_left (Nat.succ_pos _)
  obtain ⟨hopen, hclose, -⟩ := hrun d List.mem_cons_self
  rw [List.cons_append, scan]
  · rw [← List.cons_append, TemplateSyntax.specRest_append hrun hc, Frame.run, if_pos hlt]
  · exact fun _ heq => hopen (List.cons.inj heq).1
  · exact fun _ heq => hclose (List.cons.inj heq).1

end Frame

/-! ## Every part of a string

A part of a string begins with frames of its own, `frames`, on whatever there is below. The
induction is on the derivation, and what it shows of each part is that a host reports what was
derived and comes out with those frames gone. -/

namespace Part

/-- The frames on which a part begins. -/
def frames : Part → List Frame
  | .string => []
  | .text style | .hole style => [.text style]
  | .code style depth => [.field style depth]
  | .spec style => [.spec style]

/-- Whether a part may stand on given frames: a string where there is code. -/
def StandsOn : Part → Nesting → Prop
  | .string, outer => outer.inCode = true
  | .text style, _ | .hole style, _ | .code style _, _ | .spec style, _ => style.Quoted

end Part

theorem Derives.exists_fieldOpener {openers : Openers} {style : TemplateSyntax}
    {word following : List Char} {reports : List Report}
    (h : Derives openers (.hole style) word following reports) :
    ∃ code, word ++ following = style.fieldOpener ++ code ∧ style.Fits code := by
  cases h with
  | hole hfits =>
      refine ⟨_, ?_, hfits⟩
      simp only [List.append_assoc]

namespace Host

variable {openers : Openers} {outer : Nesting} {style : TemplateSyntax}
  {letters body : List Char}

theorem take_append (word rest : List Char) (kind : Kind) (nesting : Nesting) :
    take (word ++ rest) ⟨kind, rest⟩ nesting = ([.lexeme ⟨kind, word⟩], ⟨nesting, rest⟩) := by
  rw [take, before_append]

theorem step_string (hq : style.Quoted) (hletters : ∀ c ∈ letters, c.isAlpha)
    (hin : outer.inCode = true)
    (hopen : openers (letters ++ (style.quotes ++ body)) = some (style, body)) :
    step openers ⟨outer, letters ++ (style.quotes ++ body)⟩ =
      take (letters ++ (style.quotes ++ body)) (outer.enter style body).1
        (outer.enter style body).2 := by
  obtain ⟨c, t, heq, hc⟩ := exists_begins hq hletters body
  rw [heq] at hopen ⊢
  exact step_opener (List.cons_ne_nil c t) hin (Nesting.delimiter_of_begins hin hc) hopen

end Host

open Host in
/-- On every part of a string a host reports what the derivation says. It begins with the frames of
the part, and it leaves them. -/
theorem Derives.reaches {openers : Openers} {part : Part} {word following : List Char}
    {reports : List Report} (h : Derives openers part word following reports) {outer : Nesting}
    (hpart : part.StandsOn outer) :
    Reaches openers ⟨part.frames ++ outer, word ++ following⟩ reports ⟨outer, following⟩ := by
  induction h generalizing outer with
  | @whole style letters run f hq hletters hopen hrun =>
      have hstep := step_string hq hletters hpart hopen
      have htext : style.text (run ++ (style.quotes ++ f)) = (.closed, f) := by
        rw [hrun.text_append hq, TemplateSyntax.text_quotes hq]
      have henter : outer.enter style (run ++ (style.quotes ++ f)) = (⟨style.kind, f⟩, outer) := by
        rw [Nesting.enter, htext]
        rfl
      have hword : letters ++ (style.quotes ++ (run ++ style.quotes)) ++ f =
          letters ++ (style.quotes ++ (run ++ (style.quotes ++ f))) := by
        simp only [List.append_assoc]
      rw [henter, ← hword, take_append] at hstep
      exact .one hstep
  | @opened style letters run w f r hq hletters hopen hrun more ih =>
      obtain ⟨code, hw, hfits⟩ := more.exists_fieldOpener
      have hstep := step_string hq hletters hpart hopen
      have htext : style.text (run ++ (w ++ f)) = (.field, w ++ f) := by
        rw [hrun.text_append hq, hw, TemplateSyntax.text_fieldOpener hq hfits]
      have henter : outer.enter style (run ++ (w ++ f)) =
          (⟨style.kind, w ++ f⟩, .text style :: outer) := by
        rw [Nesting.enter, htext]
        rfl
      have hword : letters ++ (style.quotes ++ (run ++ (w ++ f))) =
          letters ++ (style.quotes ++ run) ++ (w ++ f) := by
        simp only [List.append_assoc]
      have hword' : letters ++ (style.quotes ++ (run ++ w)) ++ f =
          letters ++ (style.quotes ++ run) ++ (w ++ f) := by
        simp only [List.append_assoc]
      rw [henter, hword, take_append] at hstep
      rw [hword']
      exact .head hstep (ih hq)
  | @closed style run f hrun =>
      have hscan := Frame.scan_closed hpart hrun
      have hne : run ++ (style.quotes ++ f) ≠ [] := by
        have hquotes := style.length_quotes_pos
        rw [← List.length_pos_iff, List.length_append, List.length_append]
        omega
      have hstep := step_literal openers outer hne rfl hscan
      rw [← List.append_assoc, take_append] at hstep
      exact .one hstep
  | @run style run w f r hne hrun more ih =>
      obtain ⟨code, hw, hfits⟩ := more.exists_fieldOpener
      have hscan := Frame.scan_run hpart hne hfits (hw ▸ hrun)
      rw [← hw] at hscan
      have hne' : run ++ (w ++ f) ≠ [] := fun heq => hne (List.append_eq_nil_iff.1 heq).1
      have hstep := step_literal openers outer hne' rfl hscan
      rw [take_append] at hstep
      rw [List.append_assoc]
      exact .head hstep (ih hpart)
  | noRun more ih => exact ih hpart
  | @hole style code w f r r' hfits field more ihField ihMore =>
      have hne : style.fieldOpener ++ (code ++ (w ++ f)) ≠ [] := by
        rw [TemplateSyntax.fieldOpener]
        split <;> exact List.cons_ne_nil _ _
      have hstep := step_literal openers outer hne rfl
        (Frame.scan_fieldOpener hfits)
      have hword : style.fieldOpener ++ (code ++ w) ++ f =
          style.fieldOpener ++ (code ++ (w ++ f)) := by
        simp only [List.append_assoc]
      rw [take_append] at hstep
      rw [hword]
      have hfield := @ihField (.text style :: outer) hpart
      exact .head hstep (hfield.trans (ihMore hpart))
  | @char style depth c w f r hc hopen more ih =>
      have hline : style.singleLine → Nesting.crossesLine (c :: (w ++ f)) = false := by
        intro hs
        rw [Nesting.crossesLine_cons, beq_eq_false_iff_ne.2 (hc.line hs),
          more.crossesLine_eq_false rfl hs, Bool.or_self, Bool.and_false]
      exact .head (step_code rfl (Nesting.delimiter_of_codeChar hc hline) hopen) (ih hpart)
  | openBracket hc hopen more ih =>
      exact .head (step_code rfl (Nesting.delimiter_of_open hc) hopen) (ih hpart)
  | closeBracket hc hopen more ih =>
      exact .head (step_code rfl (Nesting.delimiter_of_close hc) hopen) (ih hpart)
  | @nested style depth w w' f r r' string more ihString ihMore =>
      have hstring := @ihString (.field style depth :: outer) rfl
      rw [List.append_assoc]
      exact hstring.trans (ihMore hpart)
  | @endField style f =>
      have hstep : step openers ⟨.field style 0 :: outer, '\x7d' :: f⟩ =
          take ('\x7d' :: f) ⟨.stringInterpol, f⟩ outer := step_delimiter openers rfl rfl
      exact .one (hstep.trans (take_append ['\x7d'] f _ outer))
  | @colon style w f r hd more ih =>
      have hstep := step_delimiter openers rfl
        (Nesting.delimiter_colon outer (w ++ f) hd)
      exact .head (hstep.trans (take_append [':'] (w ++ f) _ _)) (ih hpart)
  | @endSpec style f =>
      have hstep : step openers ⟨.spec style :: outer, '\x7d' :: f⟩ =
          take ('\x7d' :: f) ⟨.stringInterpol, f⟩ ([] ++ outer) :=
        step_literal openers outer (List.cons_ne_nil _ _) rfl rfl
      exact .one (hstep.trans (take_append ['\x7d'] f _ outer))
  | @specField style code w f r r' field more ihField ihMore =>
      have hstep : step openers ⟨.spec style :: outer, '\x7b' :: (code ++ (w ++ f))⟩ =
          take ('\x7b' :: (code ++ (w ++ f))) ⟨.stringInterpol, code ++ (w ++ f)⟩
            ([.field style 0, .spec style] ++ outer) :=
        step_literal openers outer (List.cons_ne_nil _ _) rfl rfl
      have hword : '\x7b' :: (code ++ w) ++ f = '\x7b' :: (code ++ (w ++ f)) := by
        simp only [List.cons_append, List.append_assoc]
      have hfield := @ihField (.spec style :: outer) hpart
      rw [hword]
      exact .head (hstep.trans (take_append ['\x7b'] _ _ _)) (hfield.trans (ihMore hpart))
  | @specRun style run w f c r hne hrun hc more ih =>
      have hne' : run ++ c :: (w ++ f) ≠ [] := fun heq => hne (List.append_eq_nil_iff.1 heq).1
      have hstep := step_literal openers outer hne' rfl
        (Frame.scan_specRun hne hrun (TemplateSyntax.not_specText_of_brace hc))
      have hword : run ++ c :: w ++ f = run ++ c :: (w ++ f) := by
        simp only [List.cons_append, List.append_assoc]
      rw [take_append] at hstep
      rw [hword]
      exact .head hstep (ih hpart)

theorem Derives.flatMap_text {openers : Openers} {part : Part} {word following : List Char}
    {reports : List Report} (h : Derives openers part word following reports) :
    reports.flatMap Report.text = word := by
  induction h with
  | hole _ _ _ ihField ihMore =>
      rw [List.flatMap_cons, List.flatMap_append, ihField, ihMore]
      rfl
  | specField _ _ ihField ihMore =>
      rw [List.flatMap_cons, List.flatMap_append, ihField, ihMore]
      rfl
  | nested _ _ ihString ihMore => rw [List.flatMap_append, ihString, ihMore]
  | opened _ _ _ _ _ ih =>
      rw [List.flatMap_cons, ih]
      simp only [Report.text, List.append_assoc]
  | run _ _ _ ih => rw [List.flatMap_cons, ih]; rfl
  | specRun _ _ _ _ ih => rw [List.flatMap_cons, ih]; rfl
  | char _ _ _ ih => rw [List.flatMap_cons, ih]; rfl
  | openBracket _ _ _ ih => rw [List.flatMap_cons, ih]; rfl
  | closeBracket _ _ _ ih => rw [List.flatMap_cons, ih]; rfl
  | colon _ _ ih => rw [List.flatMap_cons, ih]; rfl
  | noRun _ ih => exact ih
  | _ => exact List.append_nil _

/-- A host that comes to a string while it scans code reports what the derivation of the string
says, text and delimiters for the string and everything in it, and then it is in the same code as
before. Of the text behind the string it has not read anything. -/
theorem Host.run_string {openers : Openers} {word following : List Char} {reports : List Report}
    (h : Derives openers .string word following reports) {outer : Nesting}
    (hin : outer.inCode = true) :
    reports.flatMap Report.text = word ∧
      ∃ n, Host.run openers n ⟨outer, word ++ following⟩ = (reports, ⟨outer, following⟩) :=
  ⟨h.flatMap_text, h.reaches hin⟩

/-- A string in the field of a string, a format specification and a field in it, behind a doubled
brace. -/
theorem Host.run_string_fString :
    ∃ n, Host.run Python.fString? n
        ⟨[], ['f', '\'', '\x7b', '\x7b', '\x7b', 'f', '\x22', '\x7b', 'y', '\x7d', '\x22', ':', '>',
          '\x7b', 'w', '\x7d', '\x7d', '\'', ';']⟩ =
      ([.lexeme ⟨.string, ['f', '\'', '\x7b', '\x7b']⟩, .interpol ['\x7b'],
          .lexeme ⟨.string, ['f', '\x22']⟩, .interpol ['\x7b'], .code 'y', .interpol ['\x7d'],
          .lexeme ⟨.string, ['\x22']⟩, .interpol [':'], .lexeme ⟨.string, ['>']⟩,
          .interpol ['\x7b'], .code 'w', .interpol ['\x7d'], .interpol ['\x7d'],
          .lexeme ⟨.string, ['\'']⟩],
        ⟨[], [';']⟩) := by
  let outer : TemplateSyntax := { quote := '\'', kind := .string }
  let inner : TemplateSyntax := { quote := '\x22', kind := .string }
  -- The parts are derived from the last to the first, since each is given what is behind it.
  have hclose : Derives Python.fString? (.text outer) ['\''] [';'] _ :=
    @Derives.closed _ _ [] _ .nil
  have hwidth : Derives Python.fString? (.code outer 0) ['w', '\x7d'] ['\x7d', '\'', ';'] _ :=
    .char ⟨by decide, by decide, by decide⟩ rfl .endField
  have hspec : Derives Python.fString? (.spec outer) ['>', '\x7b', 'w', '\x7d', '\x7d']
      ['\'', ';'] _ :=
    @Derives.specRun _ outer ['>'] ['w', '\x7d', '\x7d'] _ '\x7b' _ (by decide)
      (by simp [TemplateSyntax.SpecText, outer]) (.inl rfl)
      (@Derives.specField _ outer ['w', '\x7d'] ['\x7d'] _ _ _ hwidth .endSpec)
  have hquoted : Derives Python.fString? (.text inner) ['\x22']
      [':', '>', '\x7b', 'w', '\x7d', '\x7d', '\'', ';'] _ :=
    @Derives.closed _ _ [] _ .nil
  have hname : Derives Python.fString? (.code inner 0) ['y', '\x7d']
      ['\x22', ':', '>', '\x7b', 'w', '\x7d', '\x7d', '\'', ';'] _ :=
    .char ⟨by decide, by decide, by decide⟩ rfl .endField
  have hinner : Derives Python.fString? .string ['f', '\x22', '\x7b', 'y', '\x7d', '\x22']
      [':', '>', '\x7b', 'w', '\x7d', '\x7d', '\'', ';'] _ :=
    @Derives.opened _ inner ['f'] [] ['\x7b', 'y', '\x7d', '\x22'] _ _ (.inr (.inl rfl))
      (List.forall_mem_singleton.2 rfl) rfl .nil
      (@Derives.hole _ inner ['y', '\x7d'] ['\x22'] _ _ _ (fun _ => by decide) hname hquoted)
  have hstring : Derives Python.fString? .string ['f', '\'', '\x7b', '\x7b', '\x7b', 'f', '\x22',
      '\x7b', 'y', '\x7d', '\x22', ':', '>', '\x7b', 'w', '\x7d', '\x7d', '\''] [';'] _ :=
    @Derives.opened _ outer ['f'] ['\x7b', '\x7b'] ['\x7b', 'f', '\x22', '\x7b', 'y', '\x7d',
      '\x22', ':', '>', '\x7b', 'w', '\x7d', '\x7d', '\''] _ _ (.inl rfl)
      (List.forall_mem_singleton.2 rfl) rfl (.brace rfl .nil)
      (@Derives.hole _ outer ['f', '\x22', '\x7b', 'y', '\x7d', '\x22', ':', '>', '\x7b', 'w',
        '\x7d', '\x7d'] ['\''] _ _ _ (fun _ => by decide)
        (@Derives.nested _ outer 0 ['f', '\x22', '\x7b', 'y', '\x7d', '\x22']
          [':', '>', '\x7b', 'w', '\x7d', '\x7d'] _ _ _ hinner (.colon rfl hspec)) hclose)
  exact (Host.run_string hstring rfl).2

end Highlight
