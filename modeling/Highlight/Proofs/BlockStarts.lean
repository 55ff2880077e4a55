import Highlight.Language
import Highlight.Proofs.RuleKinds
import Highlight.Proofs.RuleLines
import Highlight.Proofs.Runs

/-!
# Blocks and the start of a line

In Markdown a flag says whether nothing but spaces and tabs is in front on the line, and blocks are
looked for only where it is set. Text in front is never looked at again, so the flag has to be right
behind every lexeme, and there are three things a step can do to it. A newline sets it, blanks leave
it alone, and all else clears it.

Clearing it is right if something on the line can be seen then. This is so for whatever begins with
something that can be seen and holds no newline, and that is all but two constructs. Code that is
set in may be blank, and a fenced block may span lines, but both of them go on to the end of a line.
The flag is wrong there, and it does not matter: what follows is a newline, which sets it, or
nothing.

Everything said of lexemes follows from where blocks are looked for. The fenced block is the only
construct that can hold a newline, and headings, quotations and markers are blocks.
-/

namespace Highlight.Markdown

variable {c closing : Char} {s rest text : List Char} {lineStart : Bool} {found r : Match}
  {rule : Rule}

/-- Whether nothing but spaces and tabs stands behind the last newline of a text. -/
def Indented (s : List Char) : Prop :=
  ∀ c ∈ lastLine s, blanks.has c = true

/-- Whether the line is over behind what was taken, or something that was taken can be seen on
it. -/
def Fills (s rest : List Char) : Prop :=
  rest = [] ∨ rest.head? = some '\n' ∨ ¬ Indented (before s rest)

theorem indented_append_newline (s : List Char) : Indented (s ++ ['\n']) := by
  have hline : lastLine (s ++ ['\n']) = [] := lastLine_append_newline s List.not_mem_nil
  rw [Indented, hline]
  exact List.forall_mem_nil _

theorem indented_append (hline : '\n' ∉ rest) :
    Indented (s ++ rest) ↔ Indented s ∧ ∀ c ∈ rest, blanks.has c = true := by
  rw [Indented, lastLine_append s hline]
  exact List.forall_mem_append

/-- What is in front on the line stays there. -/
theorem Indented.of_append (h : Indented (s ++ rest)) : Indented rest :=
  fun c hc => h c ((lastLine_suffix_append s rest).mem hc)

theorem fills_of_mem {taken : List Char} (hline : '\n' ∉ taken) (hc : c ∈ taken)
    (hseen : blanks.has c = false) : Fills (taken ++ rest) rest := by
  refine .inr (.inr fun hindented => ?_)
  rw [before_append, Indented, lastLine_eq_self hline] at hindented
  rw [hindented c hc] at hseen
  cases hseen

theorem fills_fromNewline (s t : List Char) : Fills s (fromNewline t) := by
  have hstop := Stops.dropWhile (· != '\n') t
  unfold fromNewline
  cases hrest : t.dropWhile (· != '\n') with
  | nil => exact .inl rfl
  | cons c rest =>
      rw [hrest] at hstop
      have hc : c = '\n' := by simpa using hstop.head
      exact .inr (.inl (congrArg some hc))

/-! ## Constructs on one line

Apart from code that is set in and from fenced blocks, every construct begins with a character that
can be seen and holds no newline. The second is said by counting: as many newlines are left behind a
construct as there were in front of it, and counts go unchanged through one scan after another. -/

/-- Whether whatever the rule recognises begins with something that can be seen and holds no
newline. -/
def OnLine (rule : Rule) : Prop :=
  ∀ (c : Char) (s : List Char) (r : Match), rule (c :: s) = some r →
    blanks.has c = false ∧ r.rest.count '\n' = (c :: s).count '\n'

theorem onLine_firstOf {rules : List Rule} (h : ∀ rule ∈ rules, OnLine rule) :
    OnLine (Rule.firstOf rules) := by
  intro c s r hr
  obtain ⟨rule, hmem, hrule⟩ := List.exists_of_findSome?_eq_some hr
  exact h rule hmem c s r hrule

theorem OnLine.notMem (h : OnLine rule) (hconsumes : rule.Consumes) (hr : rule (c :: s) = some r) :
    '\n' ∉ before (c :: s) r.rest := by
  obtain ⟨taken, rfl⟩ := hconsumes c s r hr
  have hcount := (h c _ r hr).2
  rw [← List.cons_append, List.count_append] at hcount
  rw [← List.cons_append, before_append]
  exact List.count_eq_zero.1 (by omega)

theorem OnLine.fills (h : OnLine rule) (hconsumes : rule.Consumes) (hr : rule (c :: s) = some r) :
    Fills (c :: s) r.rest := by
  have hline := h.notMem hconsumes hr
  have hseen := (h c s r hr).1
  obtain ⟨taken, rfl⟩ := hconsumes c s r hr
  rw [← List.cons_append, before_append] at hline
  exact fills_of_mem hline List.mem_cons_self hseen

theorem onLine_cons (hc : blanks.has c = false ∧ c ≠ '\n')
    (hcount : rest.count '\n' = s.count '\n') :
    blanks.has c = false ∧ rest.count '\n' = (c :: s).count '\n' := by
  rw [List.count_cons_of_ne hc.2]
  exact ⟨hc.1, hcount⟩

theorem count_fromNewline (s : List Char) : (fromNewline s).count '\n' = s.count '\n' :=
  count_dropWhile (by decide) s

theorem count_behindOnLine (hclosing : closing ≠ '\n') (s : List Char) :
    (behindOnLine closing s).count '\n' = s.count '\n' := by
  have hcount := @count_dropWhile (fun c => c != closing && c != '\n') (by simp) s
  unfold behindOnLine
  split
  · next hrest =>
      rw [hrest] at hcount
      exact hcount
  · next c rest hrest =>
      rw [hrest] at hcount
      split
      · next hc =>
          rw [hc, List.count_cons_of_ne hclosing] at hcount
          exact hcount
      · exact hcount

theorem count_behindBrackets (depth : Nat) (s : List Char) :
    (behindBrackets depth s).2.count '\n' = s.count '\n' := by
  fun_induction behindBrackets depth s with
  | case1 => rfl
  | case2 => rfl
  | case3 depth s ih => rw [ih, List.count_cons_of_ne (by decide)]
  | case4 depth s _ ih => rw [ih, List.count_cons_of_ne (by decide)]
  | case5 => rfl
  | case6 depth c s _ _ hc ih => rw [ih, List.count_cons_of_ne hc]

theorem count_behindLink (s : List Char) : (behindLink s).count '\n' = s.count '\n' := by
  have hcount := count_behindBrackets 1 s
  have htarget (s : List Char) : (behindTarget s).count '\n' = s.count '\n' := by
    unfold behindTarget
    split
    · rw [count_behindOnLine (by decide), List.count_cons_of_ne (by decide)]
    · rw [count_behindOnLine (by decide), List.count_cons_of_ne (by decide)]
    · rfl
  unfold behindLink
  split
  · next rest hrest =>
      rw [hrest] at hcount
      rw [htarget, hcount]
  · next rest _ hrest =>
      rw [hrest] at hcount
      exact hcount

theorem count_behindImage (s : List Char) : (behindImage s).count '\n' = s.count '\n' := by
  have hcount := @count_dropWhile (fun c => c != ']' && c != '\n') (by decide) s
  unfold behindImage
  split
  · next rest hrest =>
      rw [hrest, List.count_cons_of_ne (by decide), List.count_cons_of_ne (by decide)] at hcount
      rw [count_behindOnLine (by decide), hcount]
  · next rest _ hrest =>
      rw [hrest, List.count_cons_of_ne (by decide)] at hcount
      exact hcount
  · exact hcount

theorem onLine_scanHeading : OnLine scanHeading := by
  intro c s r hr
  have hcount : (s.dropWhile (· == '#')).count '\n' = s.count '\n' := count_dropWhile (by decide) s
  simp only [scanHeading] at hr
  repeat' split at hr
  · cases hr
  · next hc _ =>
      cases hr
      obtain rfl : c = '#' := not_not.1 hc
      exact onLine_cons (by decide) ((count_fromNewline _).trans hcount)
  · next hc _ =>
      cases hr
      obtain rfl : c = '#' := not_not.1 hc
      exact onLine_cons (by decide) hcount

theorem onLine_scanQuotation : OnLine scanQuotation := by
  intro c s r hr
  simp only [scanQuotation] at hr
  split at hr
  · next hc =>
      cases hr
      subst hc
      exact onLine_cons (by decide) (count_fromNewline s)
  · cases hr

theorem seen_of_has {set : AsciiSet} (hc : set.has c = true)
    (h : ∀ d ∈ set.members, blanks.has d = false ∧ d ≠ '\n') : blanks.has c = false ∧ c ≠ '\n' :=
  h c (AsciiSet.mem_members.2 hc)

theorem onLine_scanBullet : OnLine scanBullet := by
  intro c s r hr
  simp only [scanBullet] at hr
  split at hr
  · next hc =>
      cases hr
      exact onLine_cons (seen_of_has hc.1 (by decide)) rfl
  · cases hr

theorem onLine_scanOrdinal : OnLine scanOrdinal := by
  intro c s r hr
  have hcount : (s.dropWhile AsciiSet.digits.has).count '\n' = s.count '\n' :=
    count_dropWhile (by decide) s
  simp only [scanOrdinal] at hr
  split at hr
  · cases hr
  · next hdigit =>
      have hseen := seen_of_has (not_not.1 hdigit) (by decide)
      split at hr
      · next rest hrest =>
          rw [hrest] at hcount
          split at hr
          · cases hr
            rw [List.count_cons_of_ne (by decide)] at hcount
            exact onLine_cons hseen hcount
          · cases hr
            exact onLine_cons hseen hcount
      · cases hr
        exact onLine_cons hseen hcount

theorem onLine_scanRule : OnLine scanRule := by
  intro c s r hr
  simp only [scanRule] at hr
  split at hr
  · next hc =>
      cases hr
      have hseen := seen_of_has hc.1 (by decide)
      have hstop : ('\n' == c || blanks.has '\n') = false := by
        simpa using ⟨hseen.2.symm, by decide⟩
      rw [drop_length_takeWhile]
      exact onLine_cons hseen (count_dropWhile hstop s)
  · cases hr

theorem onLine_scanCodeSpan : OnLine scanCodeSpan := by
  intro c s r hr
  simp only [scanCodeSpan] at hr
  split at hr
  · next hc =>
      cases hr
      subst hc
      exact onLine_cons (by decide) (count_behindOnLine (by decide) s)
  · cases hr

theorem onLine_scanEmphasis : OnLine scanEmphasis := by
  intro c s r hr
  simp only [scanEmphasis] at hr
  split at hr
  · next hc =>
      cases hr
      have hseen : blanks.has c = false ∧ c ≠ '\n' := by
        rcases hc with rfl | rfl <;> decide
      have hstop : ('\n' == c) = false := beq_eq_false_iff_ne.2 hseen.2.symm
      rw [drop_length_takeWhile]
      exact onLine_cons hseen (@count_dropWhile (· == c) hstop s)
  · cases hr

theorem onLine_scanLink : OnLine scanLink := by
  intro c s r hr
  simp only [scanLink] at hr
  split at hr
  · next hc =>
      cases hr
      subst hc
      exact onLine_cons (by decide) (count_behindLink s)
  · cases hr

theorem onLine_scanImage : OnLine scanImage := by
  intro c s r hr
  unfold scanImage at hr
  split at hr
  · next s' heq =>
      cases heq
      cases hr
      refine onLine_cons (by decide) ?_
      rw [List.count_cons_of_ne (by decide)]
      exact count_behindImage s'
  · cases hr

theorem onLine_inlineRules : OnLine (Rule.firstOf inlineRules) := by
  refine onLine_firstOf ?_
  simp only [inlineRules, List.forall_mem_cons, List.not_mem_nil, false_imp_iff, implies_true,
    and_true]
  exact ⟨onLine_scanCodeSpan, onLine_scanEmphasis, onLine_scanLink, onLine_scanImage⟩

/-- The kinds of inline constructs and of text. -/
def inlineKinds : List Kind := [.string, .genericEmph, .genericStrong, .text, .nameLabel]

/-- The kinds of blocks, and of text that begins like one. -/
def blockKinds : List Kind := [.string, .genericHeading, .genericOutput, .punctuation, .text]

theorem gives_inlineRules : (Rule.firstOf inlineRules).Gives inlineKinds := by
  refine Rule.gives_firstOf fun rule hmem => ?_
  simp only [inlineRules, List.mem_cons, List.not_mem_nil, or_false] at hmem
  rcases hmem with rfl | rfl | rfl | rfl
  · intro s r hr
    unfold scanCodeSpan at hr
    repeat' split at hr
    all_goals cases hr
    exact (by decide : Kind.string ∈ inlineKinds)
  · intro s r hr
    unfold scanEmphasis at hr
    repeat' split at hr
    all_goals cases hr
    dsimp only
    split
    · exact (by decide : Kind.genericEmph ∈ inlineKinds)
    · exact (by decide : Kind.genericStrong ∈ inlineKinds)
    · exact (by decide : Kind.genericStrong ∈ inlineKinds)
    · exact (by decide : Kind.text ∈ inlineKinds)
  · intro s r hr
    unfold scanLink at hr
    repeat' split at hr
    all_goals cases hr
    exact (by decide : Kind.nameLabel ∈ inlineKinds)
  · intro s r hr
    unfold scanImage at hr
    split at hr
    all_goals cases hr
    exact (by decide : Kind.nameLabel ∈ inlineKinds)

theorem gives_blockRules : (Rule.firstOf blockRules).Gives blockKinds := by
  refine Rule.gives_firstOf fun rule hmem => ?_
  simp only [blockRules, List.mem_cons, List.not_mem_nil, or_false] at hmem
  rcases hmem with rfl | rfl | rfl | rfl | rfl | rfl | rfl
  · intro s r hr
    unfold scanFenced at hr
    repeat' split at hr
    all_goals cases hr
    exact (by decide : Kind.string ∈ blockKinds)
  · intro s r hr
    unfold scanIndented at hr
    repeat' split at hr
    all_goals cases hr
    exact (by decide : Kind.string ∈ blockKinds)
  · intro s r hr
    simp only [scanHeading.eq_def] at hr
    repeat' split at hr
    all_goals cases hr
    · exact (by decide : Kind.genericHeading ∈ blockKinds)
    · exact (by decide : Kind.text ∈ blockKinds)
  · intro s r hr
    unfold scanQuotation at hr
    repeat' split at hr
    all_goals cases hr
    exact (by decide : Kind.genericOutput ∈ blockKinds)
  · intro s r hr
    unfold scanBullet at hr
    repeat' split at hr
    all_goals cases hr
    exact (by decide : Kind.punctuation ∈ blockKinds)
  · intro s r hr
    unfold scanOrdinal at hr
    repeat' split at hr
    all_goals cases hr
    · exact (by decide : Kind.punctuation ∈ blockKinds)
    · exact (by decide : Kind.text ∈ blockKinds)
    · exact (by decide : Kind.text ∈ blockKinds)
  · intro s r hr
    simp only [scanRule.eq_def] at hr
    repeat' split at hr
    all_goals cases hr
    exact (by decide : Kind.punctuation ∈ blockKinds)

/-! ## What a step does

All that is to be known of a step is one case analysis, `step_cases`: it reads a newline, or blanks,
or something behind which the line is over or filled. Both directions of the flag are inductions on
a run that look at a step in no other way. -/

theorem fills_behindFenced (fence s t : List Char) : Fills t (behindFenced fence s) := by
  induction s with
  | nil => exact .inl rfl
  | cons c s ih =>
      rw [behindFenced]
      split
      · exact fills_fromNewline t s
      · exact ih

theorem fills_of_block (h : Rule.firstOf blockRules (c :: s) = some found) :
    Fills (c :: s) found.rest := by
  obtain ⟨rule, hmem, hrule⟩ := List.exists_of_findSome?_eq_some h
  have hconsumes := consumes_blockRules rule hmem
  simp only [blockRules, List.mem_cons, List.not_mem_nil, or_false] at hmem
  rcases hmem with rfl | rfl | rfl | rfl | rfl | rfl | rfl
  · simp only [scanFenced] at hrule
    split at hrule
    all_goals cases hrule
    exact fills_behindFenced _ _ _
  · simp only [scanIndented] at hrule
    split at hrule
    all_goals cases hrule
    exact fills_fromNewline _ _
  · exact onLine_scanHeading.fills hconsumes hrule
  · exact onLine_scanQuotation.fills hconsumes hrule
  · exact onLine_scanBullet.fills hconsumes hrule
  · exact onLine_scanOrdinal.fills hconsumes hrule
  · exact onLine_scanRule.fills hconsumes hrule

/-- The rules in front of that for text. -/
def rulesAt (lineStart : Bool) : List Rule :=
  if lineStart then blockRules ++ inlineRules else inlineRules

theorem step_newline (lineStart : Bool) (s : List Char) :
    step lineStart '\n' s = ⟨.whitespace, s, true⟩ :=
  if_pos rfl

theorem step_of_found (hc : c ≠ '\n')
    (h : Rule.firstOf (rulesAt lineStart) (c :: s) = some found) :
    step lineStart c s = ⟨found.kind, found.rest, false⟩ := by
  simp only [rulesAt] at h
  simp only [step, if_neg hc, h]

theorem step_of_none (hc : c ≠ '\n') (h : Rule.firstOf (rulesAt lineStart) (c :: s) = none) :
    step lineStart c s = stepText lineStart c s := by
  simp only [rulesAt] at h
  simp only [step, if_neg hc, h]

/-- A construct is found by a rule for blocks, at the start of a line, or by one that stays on its
line. -/
theorem found_cases (h : Rule.firstOf (rulesAt lineStart) (c :: s) = some found) :
    lineStart = true ∧ Rule.firstOf blockRules (c :: s) = some found ∨
      Rule.firstOf inlineRules (c :: s) = some found := by
  cases lineStart with
  | false => exact .inr h
  | true =>
      have h : (blockRules ++ inlineRules).findSome? (fun rule => rule (c :: s)) = some found := h
      rw [List.findSome?_append] at h
      rcases Option.or_eq_some_iff.1 h with hblock | ⟨-, hinline⟩
      · exact .inl ⟨rfl, hblock⟩
      · exact .inr hinline

/-- Text is blanks, which leave the flag alone, or something on the line that can be seen. -/
theorem stepText_cases (hc : c ≠ '\n') (lineStart : Bool) (s : List Char) :
    (∃ rest, stepText lineStart c s = ⟨.whitespace, rest, lineStart⟩ ∧
      ∀ d ∈ before (c :: s) rest, blanks.has d = true) ∨
    ∃ rest, stepText lineStart c s = ⟨.text, rest, false⟩ ∧ Fills (c :: s) rest ∧
      '\n' ∉ before (c :: s) rest := by
  by_cases hstop : textStop.has c = true
  · have hseen : ∀ d ∈ textStop.members, d ≠ '\n' → blanks.has d = false := by decide
    have hline : '\n' ∉ [c] := by simpa using hc.symm
    have htext : before (c :: s) s = [c] := before_append [c] s
    refine .inr ⟨s, if_pos hstop, ?_, ?_⟩
    · exact fills_of_mem hline (List.mem_singleton_self c)
        (hseen c (AsciiSet.mem_members.2 hstop) hc)
    · rw [htext]
      exact hline
  · have hstep : stepText lineStart c s = _ := if_neg hstop
    rw [hstep]
    dsimp only
    rw [drop_length_takeWhile]
    generalize htake : s.takeWhile (fun d => !textStop.has d) = taken
    generalize hrest : s.dropWhile (fun d => !textStop.has d) = rest
    have hsplit : s = taken ++ rest := by
      rw [← htake, ← hrest, List.takeWhile_append_dropWhile]
    have hline : '\n' ∉ c :: taken := by
      rw [List.mem_cons, not_or]
      refine ⟨hc.symm, fun hmem => ?_⟩
      rw [← htake] at hmem
      exact absurd (List.mem_takeWhile_imp hmem) (by decide)
    have htext : before (c :: s) rest = c :: taken := by
      rw [← htake, ← hrest, before_cons_dropWhile]
    split
    · next hall =>
        rw [List.all_eq_true] at hall
        exact .inl ⟨rest, rfl, by rw [htext]; exact hall⟩
    · next hsome =>
        rw [Bool.not_eq_true, List.all_eq_false] at hsome
        obtain ⟨d, hd, hseen⟩ := hsome
        refine .inr ⟨rest, rfl, ?_, by rw [htext]; exact hline⟩
        rw [hsplit]
        exact fills_of_mem hline hd (Bool.not_eq_true _ ▸ hseen)

/-- A step reads a newline or blanks, or something else behind which the line is over or filled.
Only at the start of a line the latter may be a block, and be of another kind than inline constructs
and hold a newline. -/
theorem step_cases (lineStart : Bool) (c : Char) (s : List Char) :
    (c = '\n' ∧ step lineStart c s = ⟨.whitespace, s, true⟩) ∨
    (∃ rest, step lineStart c s = ⟨.whitespace, rest, lineStart⟩ ∧
      ∀ d ∈ before (c :: s) rest, blanks.has d = true) ∨
    ∃ kind rest, step lineStart c s = ⟨kind, rest, false⟩ ∧ kind ∈ blockKinds ++ inlineKinds ∧
      Fills (c :: s) rest ∧
      (lineStart = true ∨ kind ∈ inlineKinds ∧ '\n' ∉ before (c :: s) rest) := by
  by_cases hc : c = '\n'
  · subst hc
    exact .inl ⟨rfl, step_newline lineStart s⟩
  · refine .inr ?_
    cases hfound : Rule.firstOf (rulesAt lineStart) (c :: s) with
    | none =>
        rw [step_of_none hc hfound]
        refine (stepText_cases hc lineStart s).imp_right fun ⟨rest, hstep, hfills, hline⟩ => ?_
        exact ⟨.text, rest, hstep, by decide, hfills, .inr ⟨by decide, hline⟩⟩
    | some found =>
        refine .inr ⟨_, _, step_of_found hc hfound, ?_⟩
        rcases found_cases hfound with ⟨hstart, hblock⟩ | hinline
        · exact ⟨List.mem_append_left _ (gives_blockRules _ _ hblock), fills_of_block hblock,
            .inl hstart⟩
        · have hkind := gives_inlineRules _ _ hinline
          have hconsumes := Rule.consumes_firstOf consumes_inlineRules
          exact ⟨List.mem_append_right _ hkind, onLine_inlineRules.fills hconsumes hinline,
            .inr ⟨hkind, onLine_inlineRules.notMem hconsumes hinline⟩⟩

/-- Headings, quotations and markers are found at the start of a line only. -/
theorem lineStart_of_kind
    (hkind : (lexer.step lineStart c s).kind ∈
      [Kind.genericHeading, .genericOutput, .punctuation]) : lineStart = true := by
  have hkind : (step lineStart c s).kind ∈ _ := hkind
  rcases step_cases lineStart c s with
    ⟨rfl, hstep⟩ | ⟨rest, hstep, -⟩ | ⟨kind, rest, hstep, -, -, hblock⟩
  · rw [hstep] at hkind
    exact absurd hkind (by decide : Kind.whitespace ∉ _)
  · rw [hstep] at hkind
    exact absurd hkind (by decide : Kind.whitespace ∉ _)
  · have hother : ∀ kind ∈ inlineKinds,
        kind ∉ [Kind.genericHeading, .genericOutput, .punctuation] := by decide
    rw [hstep] at hkind
    exact hblock.resolve_right fun hinline => hother kind hinline.1 hkind

/-- So is whatever holds a newline, apart from one that stands alone. -/
theorem lineStart_of_newline (hmem : '\n' ∈ before (c :: s) (lexer.step lineStart c s).rest)
    (hmore : before (c :: s) (lexer.step lineStart c s).rest ≠ ['\n']) : lineStart = true := by
  have hmem : '\n' ∈ before (c :: s) (step lineStart c s).rest := hmem
  rcases step_cases lineStart c s with
    ⟨rfl, hstep⟩ | ⟨rest, hstep, hall⟩ | ⟨kind, rest, hstep, -, -, hblock⟩
  · have hrest : (lexer.step lineStart '\n' s).rest = s := congrArg Step.rest hstep
    rw [hrest] at hmore
    exact absurd (before_append ['\n'] s) hmore
  · rw [hstep] at hmem
    exact absurd (hall '\n' hmem) (by decide)
  · rw [hstep] at hmem
    exact hblock.resolve_right fun hinline => hinline.2 hmem

/-- What a quotation begins with is text elsewhere. -/
theorem step_quotation (lineStart : Bool) (s : List Char) :
    (step lineStart '>' s).kind = if lineStart then .genericOutput else .text := by
  have hc : '>' ≠ '\n' := by decide
  cases lineStart with
  | true =>
      have hfound : Rule.firstOf (rulesAt true) ('>' :: s) =
          some ⟨.genericOutput, fromNewline s⟩ := rfl
      rw [step_of_found hc hfound]
      rfl
  | false =>
      have hnone : Rule.firstOf (rulesAt false) ('>' :: s) = none := rfl
      rw [step_of_none hc hnone]
      rfl

theorem indented_of_lineStart (h : lexer.Visits text lineStart s) (hstart : lineStart = true) :
    Indented (before text s) := by
  induction h with
  | start =>
      have hnil := before_append [] text
      rw [List.nil_append] at hnil
      rw [hnil]
      exact List.forall_mem_nil _
  | @step lineStart c s h ih =>
      have hblank (hall : ∀ d ∈ before (c :: s) (lexer.step lineStart c s).rest,
          blanks.has d = true) : '\n' ∉ before (c :: s) (lexer.step lineStart c s).rest :=
        fun hmem => absurd (hall '\n' hmem) (by decide)
      rw [h.before_step]
      rcases step_cases lineStart c s with
        ⟨rfl, hstep⟩ | ⟨rest, hstep, hall⟩ | ⟨kind, rest, hstep, -⟩
      · have hrest : (lexer.step lineStart '\n' s).rest = s := congrArg Step.rest hstep
        have hnewline : before ('\n' :: s) s = ['\n'] := before_append ['\n'] s
        rw [hrest, hnewline]
        exact indented_append_newline _
      · have hstep : lexer.step lineStart c s = _ := hstep
        rw [hstep] at hstart hblank ⊢
        exact (indented_append (hblank hall)).2 ⟨ih hstart, hall⟩
      · have hstep : lexer.step lineStart c s = _ := hstep
        rw [hstep] at hstart
        cases hstart

theorem lineStart_of_indented (h : lexer.Visits text lineStart s)
    (hindented : Indented (before text s)) :
    lineStart = true ∨ s = [] ∨ s.head? = some '\n' := by
  induction h with
  | start => exact .inl rfl
  | @step lineStart c s h ih =>
      rw [h.before_step] at hindented
      rcases step_cases lineStart c s with
        ⟨rfl, hstep⟩ | ⟨rest, hstep, hall⟩ | ⟨kind, rest, hstep, -, hfills, -⟩
      · have hstep : lexer.step lineStart '\n' s = _ := hstep
        rw [hstep]
        exact .inl rfl
      · have hblank : '\n' ∉ before (c :: s) rest := fun hmem => absurd (hall '\n' hmem) (by decide)
        have hstep : lexer.step lineStart c s = _ := hstep
        obtain ⟨taken, -, htaken⟩ := lexer.exists_taken lineStart c s
        rw [hstep] at hindented htaken ⊢
        rcases ih ((indented_append hblank).1 hindented).1 with hstart | hnil | hline
        · exact .inl hstart
        · cases hnil
        · -- A newline is no blank.
          rw [htaken] at hblank
          exact absurd (List.mem_cons.2 (.inl (Option.some.inj hline).symm)) hblank
      · have hstep : lexer.step lineStart c s = _ := hstep
        rw [hstep] at hindented ⊢
        rcases hfills with hnil | hline | hseen
        · exact .inr (.inl hnil)
        · exact .inr (.inr hline)
        · exact absurd hindented.of_append hseen

/-- In front of every lexeme the flag is set only if nothing but spaces and tabs is in front on the
line, and then it is, unless a newline is next or nothing. So headings, quotations and markers are
at the start of a line in this sense, and so is what holds a newline and is more than that. What
begins with the mark of a quotation is one exactly there, and it is text elsewhere. -/
theorem lexRange_lineStart (text : List Char) (range : ByteRange) :
    let code := range.slice text
    (∀ lineStart s, lexer.Visits code lineStart s →
      (lineStart = true → Indented (before code s)) ∧
        (Indented (before code s) → s ≠ [] → s.head? ≠ some '\n' → lineStart = true)) ∧
      ∀ front lexeme back, Language.markdown.lexRange text range = front ++ lexeme :: back →
        let indented := Indented (front.flatMap Lexeme.text)
        (lexeme.kind ∈ [Kind.genericHeading, .genericOutput, .punctuation] → indented) ∧
          ('\n' ∈ lexeme.text → lexeme.text ≠ ['\n'] → indented) ∧
          (lexeme.text.head? = some '>' →
            (lexeme.kind = .genericOutput ↔ indented) ∧ (lexeme.kind = .text ↔ ¬ indented)) := by
  intro code
  refine ⟨fun lineStart s h => ⟨indented_of_lineStart h, fun hindented hnil hline => ?_⟩, ?_⟩
  · rcases lineStart_of_indented h hindented with hstart | hend | hnewline
    · exact hstart
    · exact absurd hend hnil
    · exact absurd hnewline hline
  · intro front lexeme back hsplit indented
    rw [Language.lexRange_eq_lex] at hsplit
    obtain ⟨lineStart, c, s, hvisits, hfront, rfl, -⟩ := Lexer.exists_visits hsplit
    have hset : lineStart = true → indented := by
      intro hstart
      have hindented := indented_of_lineStart hvisits hstart
      rw [hfront] at hindented
      exact hindented
    refine ⟨fun hkind => hset (lineStart_of_kind hkind),
      fun hmem hmore => hset (lineStart_of_newline hmem hmore), fun hhead => ?_⟩
    obtain ⟨taken, -, htaken⟩ := lexer.exists_taken lineStart c s
    dsimp only at hhead ⊢
    rw [htaken] at hhead
    obtain rfl : c = '>' := Option.some.inj hhead
    have hstart : lineStart = true ↔ indented := by
      refine ⟨hset, fun hindented => ?_⟩
      have hall : Indented (before code ('>' :: s)) := by
        rw [hfront]
        exact hindented
      rcases lineStart_of_indented hvisits hall with hstart | hnil | hline
      · exact hstart
      · cases hnil
      · cases hline
    have hkind : (lexer.step lineStart '>' s).kind = _ := step_quotation lineStart s
    rw [hkind, ← hstart]
    cases lineStart <;> decide

end Highlight.Markdown
