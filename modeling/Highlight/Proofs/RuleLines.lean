import Highlight.Proofs.NumberLiterals
import Highlight.Proofs.Positions
import Highlight.Proofs.TemplateGrammar

/-!
# What a rule leaves of a line

Behind a construct the line it ends on is over, or there is something on it that can be seen: this
is `Marked`, and it is so for constructs of two sorts. Those that hold no newline have their first
character on the line. Those that may hold one are quoted, and they end with a quote, or else where
the line or the text does.

That a construct holds no newline is said of its rest. There are as many newlines left behind it as
there were in front, and where scans follow on each other the counts go through unchanged.
-/

namespace Highlight

variable {c quote : Char} {s s' t rest : List Char}

/-- Whether nothing can be seen of a text. -/
def Blank (s : List Char) : Prop :=
  ∀ c ∈ s, AsciiSet.whitespace.has c = true

theorem blank_append : Blank (s ++ t) ↔ Blank s ∧ Blank t :=
  List.forall_mem_append

theorem Blank.of_suffix (h : Blank s) (hs : t <:+ s) : Blank t :=
  fun c hc => h c (hs.mem hc)

theorem lastLine_suffix (s : List Char) : lastLine s <:+ s :=
  List.rtakeWhile_suffix _ s

theorem lastLine_eq_self (h : '\n' ∉ s) : lastLine s = s :=
  lastLine_append [] h

theorem lastLine_append_of_mem (s : List Char) (h : '\n' ∈ t) : lastLine (s ++ t) = lastLine t := by
  obtain ⟨lines, line, rfl, hnot⟩ := exists_last_newline h
  rw [← List.append_assoc, lastLine_append_newline _ hnot, lastLine_append_newline _ hnot]

/-- The last line of a text gets no shorter by what is put in front. -/
theorem lastLine_suffix_append (s t : List Char) : lastLine t <:+ lastLine (s ++ t) := by
  by_cases hline : '\n' ∈ t
  · rw [lastLine_append_of_mem s hline]
  · rw [lastLine_append s hline, lastLine_eq_self hline]
    exact List.suffix_append ..

theorem blank_lastLine_append (ht : Blank t) (h : '\n' ∈ t ∨ Blank (lastLine s)) :
    Blank (lastLine (s ++ t)) := by
  by_cases hline : '\n' ∈ t
  · rw [lastLine_append_of_mem s hline]
    exact ht.of_suffix (lastLine_suffix t)
  · rw [lastLine_append s hline]
    exact blank_append.2 ⟨h.resolve_left hline, ht⟩

/-- Whether the line is over behind what was taken, or something that was taken can be seen on
it. -/
def Marked (s rest : List Char) : Prop :=
  rest = [] ∨ rest.head? = some '\n' ∨ ¬ Blank (lastLine (before s rest))

/-- What begins with something that can be seen and holds no newline. -/
theorem marked_of_count (hc : AsciiSet.whitespace.has c = false) (hs : rest <:+ s)
    (hcount : rest.count '\n' = (c :: s).count '\n') : Marked (c :: s) rest := by
  obtain ⟨taken, rfl⟩ := hs
  have hnot : '\n' ∉ c :: taken := by
    rw [← List.cons_append, List.count_append] at hcount
    exact List.count_eq_zero.1 (by omega)
  refine .inr (.inr fun hblank => ?_)
  rw [← List.cons_append, before_append, lastLine_eq_self hnot] at hblank
  rw [hblank c List.mem_cons_self] at hc
  cases hc

/-- Whether a scan for a quote ended behind one, or where the line or the text does. -/
def Ends (quote : Char) (s rest : List Char) : Prop :=
  rest = [] ∨ rest.head? = some '\n' ∨ quote :: rest <:+ s

theorem Ends.trans (h : Ends quote s rest) (hs : s <:+ t) : Ends quote t rest :=
  h.imp_right fun h => h.imp_right fun hquote => hquote.trans hs

theorem Ends.marked (h : Ends quote s rest) (hquote : AsciiSet.whitespace.has quote = false) :
    Marked s rest := by
  refine h.imp_right fun h => h.imp_right fun hsuffix hblank => ?_
  obtain ⟨front, rfl⟩ := hsuffix
  have hne : '\n' ∉ [quote] := by
    rw [List.mem_singleton]
    rintro rfl
    cases hquote
  rw [List.append_cons, before_append, lastLine_append front hne, blank_append] at hblank
  rw [hblank.2 quote List.mem_cons_self] at hquote
  cases hquote

theorem count_dropWhile {p : Char → Bool} (hp : p '\n' = false) (s : List Char) :
    (s.dropWhile p).count '\n' = s.count '\n' := by
  induction s with
  | nil => rfl
  | cons c s ih =>
      by_cases hc : p c = true
      · have hne : c ≠ '\n' := ne_of_class hc hp
        rw [List.dropWhile_cons_of_pos hc, ih, List.count_cons_of_ne hne]
      · rw [List.dropWhile_cons_of_neg hc]

theorem count_behindWord {set : AsciiSet} (hset : set.has '\n' = false) (s : List Char) :
    (behindWord set s).count '\n' = s.count '\n' := by
  refine count_dropWhile ?_ s
  rw [continuesWord, if_pos (by decide)]
  exact hset

namespace NumberSyntax

variable (syn : NumberSyntax)

theorem count_behindDigits {set : AsciiSet} (hset : set.has '\n' = false) (s : List Char) :
    (syn.behindDigits set s).count '\n' = s.count '\n' :=
  count_dropWhile (isDigitOrGap_eq_false hset (by decide)) s

theorem count_behindSign (s : List Char) : (behindSign s).count '\n' = s.count '\n' := by
  unfold behindSign
  split
  · split
    · next c s hsign =>
        have hne : c ≠ '\n' := by
          rintro rfl
          exact absurd hsign (by decide)
        exact (List.count_cons_of_ne hne).symm
    · rfl
  · rfl

theorem count_behindExponent? (h : syn.behindExponent? s = some rest) :
    rest.count '\n' = s.count '\n' := by
  unfold behindExponent? at h
  split at h
  · cases h
  · next e s =>
      split at h
      · next hmark =>
          cases h
          have hne : e ≠ '\n' := by
            rintro rfl
            exact absurd hmark.1 (by decide)
          rw [count_behindDigits syn (by decide), count_behindSign, List.count_cons_of_ne hne]
      · cases h

theorem count_withSuffix (kind : Kind) (s : List Char) :
    (syn.withSuffix kind s).rest.count '\n' = s.count '\n' := by
  have hword : (behindWord .identContinue s).count '\n' = s.count '\n' :=
    count_behindWord (by decide) s
  unfold withSuffix
  dsimp only
  repeat' split
  · rfl
  · exact hword
  · exact hword
  · exact hword
  · rfl

theorem count_fraction (s : List Char) : (syn.fraction s).rest.count '\n' = s.count '\n' := by
  unfold fraction
  split
  · next s =>
      have hpoint : ('.' :: s).count '\n' = s.count '\n' := List.count_cons_of_ne (by decide)
      split
      · exact (count_behindDigits syn (by decide) s).trans hpoint.symm
      · split
        · exact hpoint.symm
        · rfl
  · rfl

theorem count_ending (literal : Match) :
    (syn.ending literal).rest.count '\n' = literal.rest.count '\n' := by
  have hexponent : (syn.withExponent literal).rest.count '\n' = literal.rest.count '\n' := by
    unfold withExponent
    split
    · next h => exact count_behindExponent? syn h
    · rfl
  exact (count_withSuffix syn _ _).trans hexponent

theorem count_scanDecimal (s : List Char) :
    (syn.scanDecimal s).rest.count '\n' = s.count '\n' := by
  rw [scanDecimal, count_ending, count_fraction, count_behindDigits syn (by decide)]

theorem count_scanRadix {r : Match} (h : syn.scanRadix s = some r) :
    r.rest.count '\n' = s.count '\n' := by
  unfold scanRadix at h
  split at h
  · cases h
  · next letter s =>
      split at h
      · cases h
      · next set kind hradix =>
          cases h
          have hfree : letter ≠ '\n' ∧ set.has '\n' = false := by
            unfold radix? at hradix
            repeat' split at hradix
            all_goals cases hradix
            all_goals next hletter =>
              refine ⟨?_, by decide⟩
              rintro rfl
              exact absurd hletter.2 (by decide)
          rw [count_withSuffix, count_behindDigits syn hfree.2, List.count_cons_of_ne hfree.1]

end NumberSyntax

theorem ends_fromNewline (quote : Char) (s : List Char) : Ends quote s (fromNewline s) := by
  have hstop := List.head?_dropWhile_not (· != '\n') s
  unfold fromNewline
  cases hrest : s.dropWhile (· != '\n') with
  | nil => exact .inl rfl
  | cons c rest =>
      rw [hrest] at hstop
      have hc : c = '\n' := by simpa using hstop
      exact .inr (.inl (congrArg some hc))

theorem Quoted.ends_rest (quote : Char) (escapes multiline : Bool) (s : List Char) :
    Ends quote s (Quoted.rest quote escapes multiline s) := by
  refine JumpScan.run_induction (motive := Ends quote) (.inl rfl) (fun _ _ _ hs h => h.trans hs)
    (fun _ c s rest _ hlook => ?_) () s
  simp only [single] at hlook
  split_ifs at hlook with hquote hline
  · cases hlook
    exact .inr (.inr (hquote ▸ List.suffix_rfl))
  · cases hlook
    exact .inr (.inl (congrArg some hline))

theorem Quoted.ends_tripleRest (quote : Char) (s : List Char) :
    Ends quote s (tripleRest quote s) := by
  refine JumpScan.run_induction (motive := Ends quote) (.inl rfl) (fun _ _ _ hs h => h.trans hs)
    (fun _ c s rest _ hlook => ?_) () s
  simp only [triple] at hlook
  split_ifs at hlook
  split at hlook
  · next behind hbehind =>
      cases hlook
      rw [eq_append_of_isPrefixOf? hbehind]
      exact .inr (.inr (List.suffix_append [c, quote] _))
  · cases hlook

/-- A run of literal text that does not stop for a field. -/
theorem TemplateSyntax.ends_text (style : TemplateSyntax) (s : List Char)
    (h : (style.text s).1 ≠ .field) : Ends style.quote s (style.text s).2 := by
  revert h
  refine JumpScan.run_induction
    (motive := fun s (answer : TextEnd × List Char) => answer.1 ≠ .field → Ends style.quote s answer.2)
    (fun _ => .inl rfl) (fun _ _ _ hs ih h => (ih h).trans hs)
    (fun _ c s answer _ hlook hfield => ?_) () s
  simp only [textScan] at hlook
  split_ifs at hlook with hline hescape hquote
  · cases hlook
    exact .inr (.inl (congrArg some hline.2))
  · split at hlook
    · next behind hbehind =>
        cases hlook
        rw [eq_append_of_isPrefixOf? hbehind]
        exact .inr (.inr (List.suffix_append [c, style.quote] _))
    · cases hlook
  · cases hlook
    exact .inr (.inr (hquote ▸ List.suffix_rfl))
  · cases hlook
    exact absurd rfl hfield
  · cases hlook
    exact absurd rfl hfield

namespace Rule

variable {rule : Rule} {rules : List Rule}

/-- Whether whatever the rule recognises, from a character on that can be seen, leaves the line over
or marked. -/
def Marks (rule : Rule) : Prop :=
  ∀ (c : Char) (s : List Char) (r : Match), AsciiSet.whitespace.has c = false →
    rule (c :: s) = some r → Marked (c :: s) r.rest

theorem marks_firstOf (h : ∀ rule ∈ rules, Marks rule) : Marks (firstOf rules) := by
  intro c s r hc hr
  obtain ⟨rule, hmem, hrule⟩ := List.exists_of_findSome?_eq_some hr
  exact h rule hmem c s r hc hrule

theorem marks_of_count (hconsumes : rule.Consumes)
    (hcount : ∀ s r, rule s = some r → r.rest.count '\n' = s.count '\n') : rule.Marks :=
  fun c s r hc hr => marked_of_count hc (hconsumes c s r hr) (hcount _ r hr)

theorem marked_tail (hc : AsciiSet.whitespace.has c = false) (s : List Char) :
    Marked (c :: s) s :=
  Ends.marked (.inr (.inr List.suffix_rfl)) hc

theorem marks_single (kind : Kind) (set : AsciiSet) : Marks (single kind set) := by
  intro c s r hc hr
  simp only [single] at hr
  split at hr
  · cases hr
    exact marked_tail hc s
  · cases hr

end Rule

theorem marks_scanHashbang (fresh : Bool) : Rule.Marks (scanHashbang fresh) := by
  intro c s r hc hr
  unfold scanHashbang at hr
  split at hr
  · cases hr
    exact (ends_fromNewline c (c :: s)).marked hc
  · cases hr

theorem CommentSyntax.marks_scan {syn : CommentSyntax} (hblock : syn.block = none) :
    Rule.Marks syn.scan := by
  refine Rule.marks_firstOf fun rule hmem => ?_
  simp only [List.mem_cons, List.not_mem_nil, or_false] at hmem
  intro c s r hc hr
  rcases hmem with rfl | rfl
  · rw [scanBlock, hblock] at hr
    cases hr
  · unfold scanLine at hr
    split at hr
    · cases hr
      exact (ends_fromNewline c (c :: s)).marked hc
    · cases hr

theorem NumberSyntax.marks_scan (syn : NumberSyntax) : Rule.Marks syn.scan := by
  refine Rule.marks_of_count syn.consumes_scan fun s r hr => ?_
  cases s with
  | nil => cases hr
  | cons c s =>
      unfold scan at hr
      dsimp only at hr
      split at hr
      · next hc =>
          rw [hc, List.count_cons_of_ne (by decide)]
          split at hr
          · cases hr
            exact (count_ending syn _).trans (count_behindDigits syn (by decide) s)
          · cases hr
      · split at hr
        · next hdigit =>
            have hne : c ≠ '\n' := ne_of_class hdigit (by decide)
            rw [List.count_cons_of_ne hne]
            split at hr
            · rcases Option.or_eq_some_iff.1 hr with h | ⟨-, h⟩
              · exact count_scanRadix syn h
              · cases h
                exact count_scanDecimal syn s
            · cases hr
              exact count_scanDecimal syn s
        · cases hr

/-- The literals that are closed by a quote alone. -/
theorem StringSyntax.marks_scan {syn : StringSyntax} (hhashed : syn.hashedRaw = false) :
    Rule.Marks syn.scan := by
  refine Rule.marks_firstOf fun rule hmem => ?_
  simp only [List.mem_cons, List.not_mem_nil, or_false] at hmem
  intro c s r hc hr
  rcases hmem with rfl | rfl
  · simp only [scanBacktick] at hr
    split at hr
    · cases hr
      exact ((Quoted.ends_rest '\x60' false true s).trans (List.suffix_cons c s)).marked (by decide)
    · cases hr
  · simp only [scanAffixed] at hr
    split at hr
    · cases hr
    · next affix haffix =>
        obtain ⟨quote, t, hsplit, -, hopens⟩ := affix?_eq_some haffix
        have hquote : quote = '\x22' ∨ quote = '\x27' := by
          simp [opens, hhashed] at hopens
          exact hopens.imp And.right And.right
        have hvisible : AsciiSet.whitespace.has quote = false := by
          rcases hquote with rfl | rfl <;> rfl
        have hhash : quote ≠ '#' := by
          rcases hquote with rfl | rfl <;> decide
        have ht : t <:+ c :: s := hsplit ▸ (List.suffix_cons quote t).trans (List.suffix_append ..)
        rw [hsplit, List.drop_left, scanQuoted, if_neg hhash] at hr
        split at hr
        · next body hbody =>
            cases hr
            have hsuffix : body <:+ t := by
              split at hbody
              · exact suffix_of_isPrefixOf? hbody
              · cases hbody
            exact ((Quoted.ends_tripleRest quote body).trans (hsuffix.trans ht)).marked hvisible
        · cases hr
          exact ((Quoted.ends_rest quote _ _ t).trans ht).marked hvisible

namespace OperatorSyntax

variable {syn : OperatorSyntax}

theorem Clear.marks_scan (hsyn : syn.Clear) : Rule.Marks syn.scan := by
  intro c s r hc hr
  obtain ⟨-, word, hmem, hsplit⟩ := hsyn.exists_of_scan hr
  have hplain : '\n' ∉ word := by
    intro hline
    exact absurd (hsyn.plain word hmem '\n' hline).1 (by decide)
  obtain ⟨d, w, rfl⟩ := List.exists_cons_of_ne_nil (hsyn.longest word hmem).1
  rw [List.cons_append] at hsplit
  have hrest : r.rest <:+ s := ⟨w, (List.cons.inj hsplit).2.symm⟩
  refine marked_of_count hc hrest ?_
  rw [hsplit, ← List.cons_append, List.count_append, List.count_eq_zero.2 hplain, Nat.zero_add]

end OperatorSyntax

end Highlight
