import Highlight.Proofs.OpenStrings
import Highlight.Proofs.RangeScans

/-!
# The bodies of scripts and style sheets

The body of a script is read by another lexer, one that has a state of its own and never sees what
is behind the body. It takes lexemes off the body while the markup around it is read past by as
much, and the two stay in step because what the one leaves of the body is what the other has in
front of the rest. So a body is read as if it stood alone, and what is behind it as if the text
began there.

That a body begins somewhere can be seen from the lexemes alone. Only one state gives the name of a
tag, only an opening mark leads to that state, and inside of a tag nothing but its end is
punctuation. The name has decided by then what the body is, and the only thing to rule out is that
all of this is part of a script: no script has the name of a tag in it.
-/

namespace Highlight

namespace Html

open JavaScript (Templated)

variable {raw : RawText} {closing empty valueNext : Bool} {state state' : State} {c : Char}
  {text s body rest name : List Char} {front inside back : List Lexeme} {lexeme : Lexeme}

/-- Whether a body ends where the closing tag of its element begins for the first time, or, without
one, with the text. -/
structure RawText.Cuts (raw : RawText) (body rest : List Char) : Prop where
  closed : rest = [] ∨ startsIgnoringCase raw.closing rest = true
  first : ∀ front back, body ++ rest = front ++ back →
    startsIgnoringCase raw.closing back = true → body.length ≤ front.length

theorem RawText.exists_cuts (raw : RawText) (s : List Char) :
    ∃ rest, s = raw.body s ++ rest ∧ raw.Cuts (raw.body s) rest := by
  induction s with
  | nil => exact ⟨[], rfl, .inl rfl, fun _ _ _ _ => Nat.zero_le _⟩
  | cons c s ih =>
      by_cases hstart : startsIgnoringCase raw.closing (c :: s) = true
      · rw [RawText.body, if_pos hstart]
        exact ⟨c :: s, rfl, .inr hstart, fun _ _ _ _ => Nat.zero_le _⟩
      · obtain ⟨rest, heq, hcuts⟩ := ih
        rw [RawText.body, if_neg hstart]
        refine ⟨rest, congrArg (c :: ·) heq, hcuts.closed, fun front back hsplit hback => ?_⟩
        rw [List.cons_append] at hsplit
        cases front with
        | nil =>
            rw [List.nil_append, ← heq] at hsplit
            rw [← hsplit] at hback
            exact absurd hback hstart
        | cons d front =>
            have htail := (List.cons.inj hsplit).2
            exact Nat.succ_le_succ (hcuts.first front back htail hback)

/-- The lexemes of a body that is read as a text of its own. -/
def RawText.lexemes : RawText → List Char → List Lexeme
  | .script, body => JavaScript.lexer.lex body
  | .style, [] => []
  | .style, body => [⟨.text, body⟩]

/-- A lexer of markup that has nothing left of a body reads content. -/
theorem run_of_step_eq (h : ∀ c s, step state c s = stepContent c s) (s : List Char) :
    lexer.run state s = lexer.run .content s := by
  cases s with
  | nil => rw [Lexer.run_nil, Lexer.run_nil]
  | cons c s =>
      have hstep : lexer.step state c s = lexer.step .content c s := h c s
      rw [Lexer.run_cons, Lexer.run_cons, hstep]

theorem run_script (js : JavaScript.State) (body rest : List Char) :
    lexer.run (.script js body) (body ++ rest) =
      JavaScript.lexer.run js body ++ lexer.run .content rest := by
  fun_induction Lexer.run JavaScript.lexer js body with
  | case1 js =>
      rw [List.nil_append]
      exact run_of_step_eq (fun _ _ => rfl) rest
  | case2 js b body next ih =>
      have hsuffix : next.rest <:+ b :: body := JavaScript.lexer.step_suffix_cons js b body
      have htext := before_append_append hsuffix rest
      rw [List.cons_append] at htext
      rw [List.cons_append, Lexer.run_cons, step_script, htext, ih, List.cons_append]

theorem run_style (body rest : List Char) :
    lexer.run (.style body) (body ++ rest) =
      RawText.style.lexemes body ++ lexer.run .content rest := by
  cases body with
  | nil => exact run_of_step_eq (fun _ _ => rfl) rest
  | cons b body =>
      have hstep : lexer.step (.style (b :: body)) b (body ++ rest) =
          ⟨.text, rest, .content⟩ := by
        show (⟨.text, (body ++ rest).drop body.length, .content⟩ : Step State) = _
        rw [List.drop_left]
      have htext := before_append (b :: body) rest
      rw [List.cons_append] at htext
      rw [List.cons_append, Lexer.run_cons, hstep, htext]
      rfl

/-- Behind the tag that opens an element with a body, the body is read apart from what is around
it. -/
theorem exists_run_ofBody (raw : RawText) (s : List Char) :
    ∃ body rest, s = body ++ rest ∧ raw.Cuts body rest ∧
      lexer.run (.ofBody (some raw) s) s = raw.lexemes body ++ lexer.lex rest := by
  obtain ⟨rest, heq, hcuts⟩ := raw.exists_cuts s
  refine ⟨raw.body s, rest, heq, hcuts, ?_⟩
  cases raw with
  | script =>
      have hrun := run_script JavaScript.lexer.start (RawText.script.body s) rest
      rw [← heq] at hrun
      exact hrun
  | style =>
      have hrun := run_style (RawText.style.body s) rest
      rw [← heq] at hrun
      exact hrun

/-- What opens a tag. -/
def opening (closing : Bool) : Lexeme :=
  ⟨.punctuation, if closing then ['<', '/'] else ['<']⟩

/-- What ends a tag. -/
def ending (empty : Bool) : Lexeme :=
  ⟨.punctuation, if empty then ['/', '>'] else ['>']⟩

/-- The kinds of content between tags. -/
def contentKinds : List Kind :=
  [.commentMultiline, .commentPreproc, .string, .nameEntity, .text, .whitespace]

/-- The kinds inside of a tag, behind its name. -/
def tagKinds : List Kind := [.whitespace, .string, .nameAttribute, .operator]

theorem gives_contentRules : (Rule.firstOf contentRules).Gives (contentKinds.erase .whitespace) := by
  refine Rule.gives_firstOf fun rule hmem => ?_
  simp only [contentRules, List.mem_cons, List.not_mem_nil, or_false] at hmem
  rcases hmem with rfl | rfl | rfl | rfl
  · intro s r hr
    obtain ⟨body, -, rfl⟩ := Option.map_eq_some_iff.1 hr
    exact (by decide : Kind.commentMultiline ∈ contentKinds.erase .whitespace)
  · intro s r hr
    unfold scanDeclaration at hr
    repeat' split at hr
    all_goals cases hr
    exact (by decide : Kind.commentPreproc ∈ contentKinds.erase .whitespace)
  · intro s r hr
    obtain ⟨body, -, rfl⟩ := Option.map_eq_some_iff.1 hr
    exact (by decide : Kind.string ∈ contentKinds.erase .whitespace)
  · intro s r hr
    unfold scanEntity at hr
    repeat' split at hr
    all_goals cases hr
    · exact (by decide : Kind.nameEntity ∈ contentKinds.erase .whitespace)
    · exact (by decide : Kind.text ∈ contentKinds.erase .whitespace)

/-- The rules in front of that for entities decline, unless what begins is markup and no tag. -/
theorem firstOf_contentRules (h : c = '<' → s.head?.any AsciiSet.letters.has = true) :
    Rule.firstOf contentRules (c :: s) = scanEntity (c :: s) := by
  have hmark : ∀ d ∈ AsciiSet.letters.members, d ≠ '!' ∧ d ≠ '?' ∧ '!'.toLower ≠ d.toLower := by
    decide
  have hletter {d : Char} {t : List Char} (hc : c = '<') (hs : s = d :: t) :
      d ≠ '!' ∧ d ≠ '?' ∧ '!'.toLower ≠ d.toLower := by
    rw [hs] at h
    exact hmark d (AsciiSet.mem_members.2 (h hc))
  have hmarkup (marker : List Char) (hstart : ['<', '!'] <+: marker) :
      marker.isPrefixOf? (c :: s) = none := by
    refine isPrefixOf?_eq_none fun hprefix => ?_
    obtain ⟨hc, t, ht⟩ := List.cons_prefix_cons.1 (hstart.trans hprefix)
    exact (hletter hc.symm ht.symm).1 rfl
  have hcomment : scanComment (c :: s) = none := by
    rw [scanComment, hmarkup _ (by decide), Option.map_none]
  have hdata : scanCharacterData (c :: s) = none := by
    rw [scanCharacterData, hmarkup _ (by decide), Option.map_none]
  have hdeclaration : scanDeclaration (c :: s) = none := by
    have hletters : "!DOCTYPE".toList = ['!', 'D', 'O', 'C', 'T', 'Y', 'P', 'E'] := by decide
    rw [scanDeclaration, if_neg]
    rintro ⟨hc, htype | hinstruction⟩
    · cases s with
      | nil => cases h hc
      | cons d t =>
          rw [hletters, startsIgnoringCase, Bool.and_eq_true, beq_iff_eq] at htype
          exact (hletter hc rfl).2.2 htype.1
    · obtain ⟨t, ht⟩ := List.head?_eq_some_iff.1 hinstruction
      exact (hletter hc ht).2.1 rfl
  rw [contentRules, Rule.firstOf_cons_of_none hcomment, Rule.firstOf_cons_of_none hdeclaration,
    Rule.firstOf_cons_of_none hdata, Rule.firstOf, List.findSome?_singleton]

theorem stepTagOpen_cases (s : List Char) :
    (∃ rest, stepTagOpen s = ⟨.text, rest, .content⟩) ∨
    ∃ closing d t, '<' :: s = (opening closing).text ++ d :: t ∧
      stepTagOpen s = ⟨.punctuation, d :: t, .tagName closing⟩ := by
  have hsplit : '<' :: s = (opening (behindSlash s).1).text ++ (behindSlash s).2 := by
    unfold behindSlash
    split
    · rfl
    · next c t =>
        by_cases hc : c = '/'
        · rw [if_pos hc, hc]
          rfl
        · rw [if_neg hc]
          rfl
  unfold stepTagOpen
  dsimp only
  split
  · next hletter =>
      rw [Option.any_eq_true] at hletter
      obtain ⟨d, hd, -⟩ := hletter
      obtain ⟨t, ht⟩ := List.head?_eq_some_iff.1 hd
      rw [ht] at hsplit ⊢
      exact .inr ⟨(behindSlash s).1, d, t, hsplit, rfl⟩
  · exact .inl ⟨(behindSlash s).2, rfl⟩

/-- A step in content stays there, or it takes what opens a tag, and then the name is next. -/
theorem stepContent_cases (c : Char) (s : List Char) :
    ((stepContent c s).kind ∈ contentKinds ∧ (stepContent c s).state = .content) ∨
    ∃ closing d t, c :: s = (opening closing).text ++ d :: t ∧
      stepContent c s = ⟨.punctuation, d :: t, .tagName closing⟩ := by
  unfold stepContent
  split
  · next found hfound => exact .inl ⟨List.mem_of_mem_erase (gives_contentRules _ _ hfound), rfl⟩
  · split
    · next hc =>
        rw [hc]
        rcases stepTagOpen_cases s with ⟨rest, heq⟩ | hopen
        · rw [heq]
          exact .inl ⟨(by decide : Kind.text ∈ contentKinds), rfl⟩
        · exact .inr hopen
    · refine .inl ⟨?_, rfl⟩
      unfold scanText
      dsimp only
      split
      · exact (by decide : Kind.whitespace ∈ contentKinds)
      · exact (by decide : Kind.text ∈ contentKinds)

/-- A step inside of a tag stays there, or it takes what ends the tag. -/
theorem stepTag_cases (raw : Option RawText) (valueNext : Bool) (c : Char) (s : List Char) :
    (∃ kind rest valueNext', kind ∈ tagKinds ∧
      stepTag raw valueNext c s = ⟨kind, rest, .tag raw valueNext'⟩) ∨
    ∃ empty rest, c :: s = (ending empty).text ++ rest ∧
      stepTag raw valueNext c s =
        ⟨.punctuation, rest, if empty then .content else .ofBody raw rest⟩ := by
  unfold stepTag
  repeat' split
  · exact .inl ⟨_, _, _, by decide, rfl⟩
  · next hc => exact .inr ⟨false, s, by rw [hc]; rfl, rfl⟩
  · next hc =>
      obtain ⟨t, rfl⟩ := List.head?_eq_some_iff.1 hc.2
      exact .inr ⟨true, t, by rw [hc.1]; rfl, rfl⟩
  · exact .inl ⟨_, _, _, by decide, rfl⟩
  · exact .inl ⟨_, _, _, by decide, rfl⟩
  · exact .inl ⟨_, _, _, by decide, rfl⟩
  · exact .inl ⟨_, _, _, by decide, rfl⟩

/-! ## What the lexemes tell of the states

Of a tag in front of a body only the lexemes are given. They are read backwards: the name of a tag
comes from one state, what leads to that state is an opening mark, and punctuation behind the name
is the end of the tag. In a script there might be all of this, and `Plain` is what rules that out.
-/

/-- Whether nothing but templates is open in the script that is being read, if one is. -/
def Plain (state : State) : Prop :=
  ∀ js body, state = .script js body → Templated js.nesting

theorem plain_ofBody (raw : Option RawText) (s : List Char) : Plain (.ofBody raw s) := by
  intro js body heq
  match raw with
  | none => cases heq
  | some .style => cases heq
  | some .script =>
      cases heq
      exact Nesting.styled_nil

theorem plain_stepContent (c : Char) (s : List Char) : Plain (stepContent c s).state := by
  intro js body heq
  rcases stepContent_cases c s with ⟨-, hcontent⟩ | ⟨closing, d, t, -, hopen⟩
  · rw [hcontent] at heq
    cases heq
  · rw [hopen] at heq
    cases heq

theorem Plain.step (h : Plain state) (c : Char) (s : List Char) :
    Plain (lexer.step state c s).state := by
  match state with
  | .content => exact plain_stepContent c s
  | .tagName closing => exact fun _ _ heq => by cases heq
  | .tag raw valueNext =>
      show Plain (stepTag raw valueNext c s).state
      rcases stepTag_cases raw valueNext c s with
        ⟨kind, rest, valueNext', -, heq⟩ | ⟨empty, rest, -, heq⟩
      · rw [heq]
        exact fun _ _ heq => by cases heq
      · rw [heq]
        cases empty
        · exact plain_ofBody raw rest
        · exact fun _ _ heq => by cases heq
  | .script js [] => exact plain_stepContent c s
  | .script js (b :: body) =>
      intro js' body' heq
      cases heq
      exact ((h js (b :: body) rfl).step b body).2
  | .style [] => exact plain_stepContent c s
  | .style (b :: body) => exact fun _ _ heq => by cases heq

theorem plain_of_visits (h : lexer.Visits text state s) : Plain state := by
  induction h with
  | start => exact fun _ _ heq => by cases heq
  | step h ih => exact ih.step _ _

/-- Only where the name of a tag is next a lexeme is one. -/
theorem exists_tagName_of_kind (h : Plain state) (hkind : (lexer.step state c s).kind = .nameTag) :
    ∃ closing, state = .tagName closing := by
  have hcontent : (stepContent c s).kind ≠ .nameTag := by
    rcases stepContent_cases c s with ⟨hmem, -⟩ | ⟨closing, d, t, -, hopen⟩
    · exact fun heq => absurd (heq ▸ hmem) (by decide)
    · rw [hopen]
      exact (by decide : Kind.punctuation ≠ .nameTag)
  match state with
  | .content => exact absurd hkind hcontent
  | .tagName closing => exact ⟨closing, rfl⟩
  | .tag raw valueNext =>
      have hkind : (stepTag raw valueNext c s).kind = .nameTag := hkind
      rcases stepTag_cases raw valueNext c s with
        ⟨kind, rest, valueNext', hmem, heq⟩ | ⟨empty, rest, -, heq⟩
      · rw [heq] at hkind
        have hkind : kind = .nameTag := hkind
        exact absurd (hkind ▸ hmem) (by decide)
      · rw [heq] at hkind
        cases hkind
  | .script js [] => exact absurd hkind hcontent
  | .script js (b :: body) =>
      have hmem := ((h js (b :: body) rfl).step b body).1
      exact absurd (hkind ▸ hmem) (by decide)
  | .style [] => exact absurd hkind hcontent
  | .style (b :: body) => cases hkind

/-- Only what opens a tag leads to its name. -/
theorem opening_of_state (h : (lexer.step state c s).state = .tagName closing) :
    (⟨(lexer.step state c s).kind, before (c :: s) (lexer.step state c s).rest⟩ : Lexeme) =
      opening closing := by
  have hcontent (h : (stepContent c s).state = .tagName closing) :
      (⟨(stepContent c s).kind, before (c :: s) (stepContent c s).rest⟩ : Lexeme) =
        opening closing := by
    rcases stepContent_cases c s with ⟨-, hstate⟩ | ⟨closing', d, t, heq, hopen⟩
    · rw [hstate] at h
      cases h
    · rw [hopen] at h
      cases h
      rw [hopen, heq, before_append]
      rfl
  match state with
  | .content => exact hcontent h
  | .tagName closing => cases h
  | .tag raw valueNext =>
      have h : (stepTag raw valueNext c s).state = .tagName closing := h
      rcases stepTag_cases raw valueNext c s with
        ⟨kind, rest, valueNext', -, heq⟩ | ⟨empty, rest, -, heq⟩
      · rw [heq] at h
        cases h
      · rw [heq] at h
        cases empty
        · match raw with
          | none => cases h
          | some .script => cases h
          | some .style => cases h
        · cases h
  | .script js [] => exact hcontent h
  | .script js (b :: body) => cases h
  | .style [] => exact hcontent h
  | .style (b :: body) => cases h

/-- Inside of a tag nothing but its end is punctuation. -/
theorem exists_tag_of_reads {raw : Option RawText}
    (h : lexer.Reads (.tag raw valueNext) s inside state rest)
    (hinside : ∀ lexeme ∈ inside, lexeme.kind ≠ .punctuation) :
    ∃ valueNext', state = .tag raw valueNext' := by
  generalize hstart : State.tag raw valueNext = start at h
  induction h generalizing valueNext with
  | nil => exact ⟨valueNext, hstart.symm⟩
  | @cons start state c s rest lexemes more ih =>
      subst hstart
      obtain ⟨hkind, hlexemes⟩ := List.forall_mem_cons.1 hinside
      have hkind : (stepTag raw valueNext c s).kind ≠ .punctuation := hkind
      rcases stepTag_cases raw valueNext c s with
        ⟨kind, rest', valueNext', -, heq⟩ | ⟨empty, rest', -, heq⟩
      · have hstate : (lexer.step (.tag raw valueNext) c s).state = .tag raw valueNext' :=
          congrArg Step.state heq
        exact ih hlexemes hstate.symm
      · rw [heq] at hkind
        exact absurd rfl hkind

theorem ofTag?_eq_some_iff :
    RawText.ofTag? name = some raw ↔ name.map Char.toLower = raw.tag := by
  constructor
  · intro h
    unfold RawText.ofTag? at h
    repeat' split at h
    all_goals cases h
    · assumption
    · assumption
  · intro h
    rw [RawText.ofTag?, h]
    cases raw <;> decide

/-- Behind the name of a tag. -/
theorem exists_run_of_name {more : List Lexeme}
    (h : lexer.run (.tagName closing) s = ⟨.nameTag, name⟩ :: more) :
    ∃ rest, lexer.run (.tag (if closing then none else RawText.ofTag? name) false) rest = more := by
  obtain ⟨c, t, rfl, hname, hmore⟩ := Lexer.exists_step_of_run_eq h
  have hstep : lexer.step (.tagName closing) c t = _ := stepTagName_eq closing t
  rw [hstep] at hname hmore
  have htext : name = before (c :: t) (behindWord .markupName t) := congrArg Lexeme.text hname
  rw [htext]
  exact ⟨_, hmore⟩

/-- Behind the end of a tag that is not empty. -/
theorem exists_run_of_ending {raw : Option RawText}
    (h : lexer.run (.tag raw valueNext) s = ending false :: back) :
    ∃ rest, lexer.run (.ofBody raw rest) rest = back := by
  obtain ⟨c, t, rfl, hend, hback⟩ := Lexer.exists_step_of_run_eq h
  have hstep : lexer.step (.tag raw valueNext) c t = stepTag raw valueNext c t := rfl
  rcases stepTag_cases raw valueNext c t with
    ⟨kind, rest, valueNext', hmem, heq⟩ | ⟨empty, rest, htext, heq⟩
  · rw [hstep, heq] at hend
    have hkind : Kind.punctuation = kind := congrArg Lexeme.kind hend
    exact absurd (hkind ▸ hmem) (by decide)
  · rw [hstep, heq] at hend hback
    rw [htext, before_append] at hend
    cases empty
    · exact ⟨rest, hback⟩
    · cases congrArg Lexeme.text hend

/-- Where a tag ends that opens a script or a style sheet, by a name in whatever case, the body
begins. It ends where the closing tag begins for the first time, or with the range. A script is read
as a text of its own, a style sheet is one lexeme unless it is empty, and what is behind the body is
read as markup from the beginning on. -/
theorem lexRange_rawText (text : List Char) (range : ByteRange)
    (h : Language.html.lexRange text range =
      front ++ opening false :: ⟨.nameTag, name⟩ :: (inside ++ ending false :: back))
    (hname : name.map Char.toLower = raw.tag)
    (hinside : ∀ lexeme ∈ inside, lexeme.kind ≠ .punctuation) :
    ∃ body rest, back.flatMap Lexeme.text = body ++ rest ∧ raw.Cuts body rest ∧
      back = raw.lexemes body ++ Language.html.lex rest := by
  -- The run is cut in front of the tag, behind its mark, behind its name and in front of its end.
  rw [Language.lexRange_eq_lex] at h
  obtain ⟨state, s, hfront, hrun⟩ := Lexer.exists_reads h
  have hplain := plain_of_visits (hfront.visits .start)
  obtain ⟨c, s, rfl, hopen, hrun⟩ := Lexer.exists_step_of_run_eq hrun
  obtain ⟨d, t, hd, htag, -⟩ := Lexer.exists_step_of_run_eq hrun
  obtain ⟨closing, hstate⟩ :=
    exists_tagName_of_kind (hplain.step c s) (congrArg Lexeme.kind htag).symm
  have hclosing : closing = false := by
    have htext := congrArg Lexeme.text (hopen.trans (opening_of_state hstate))
    cases closing
    · rfl
    · cases htext
  rw [hstate, hclosing] at hrun
  obtain ⟨t, hrun⟩ := exists_run_of_name hrun
  rw [if_neg Bool.false_ne_true, ofTag?_eq_some_iff.2 hname] at hrun
  obtain ⟨state', u, hreads, hrun⟩ := Lexer.exists_reads hrun
  obtain ⟨valueNext, rfl⟩ := exists_tag_of_reads hreads hinside
  obtain ⟨u, hof⟩ := exists_run_of_ending hrun
  obtain ⟨body, rest, hsplit, hcuts, hbody⟩ := exists_run_ofBody raw u
  refine ⟨body, rest, ?_, hcuts, hof.symm.trans hbody⟩
  rw [← hof, Lexer.flatMap_text_run, hsplit]

/-- The name is in another case and a value holds what would end the tag. The quote that the script
leaves open is not closed by the one behind it. -/
theorem lexRange_rawText_script :
    let back := [⟨.name, ['x']⟩, ⟨.operator, ['=']⟩, ⟨.stringBacktick, ['`']⟩, opening true,
      ⟨.nameTag, "ScRipt".toList⟩, ending false, ⟨.text, ['`']⟩]
    Language.html.lexRange "é<SCRIPT a='>'>x=`</ScRipt>`".toList ⟨2, 100⟩ =
        opening false :: ⟨.nameTag, "SCRIPT".toList⟩ :: ⟨.whitespace, [' ']⟩ ::
          ⟨.nameAttribute, ['a']⟩ :: ⟨.operator, ['=']⟩ :: ⟨.string, "'>'".toList⟩ ::
          ending false :: back ∧
      ∃ body rest, "x=`</ScRipt>`".toList = body ++ rest ∧ RawText.script.Cuts body rest ∧
        back = JavaScript.lexer.lex body ++ Language.html.lex rest := by
  intro back
  have hlex : Language.html.lexRange "é<SCRIPT a='>'>x=`</ScRipt>`".toList ⟨2, 100⟩ =
      [] ++ opening false :: ⟨.nameTag, "SCRIPT".toList⟩ :: ([⟨.whitespace, [' ']⟩,
        ⟨.nameAttribute, ['a']⟩, ⟨.operator, ['=']⟩, ⟨.string, "'>'".toList⟩] ++
          ending false :: back) := by
    decide +kernel
  have hname : "SCRIPT".toList.map Char.toLower = RawText.script.tag := by decide
  exact ⟨hlex, lexRange_rawText _ _ hlex hname (by decide)⟩

end Html

end Highlight
