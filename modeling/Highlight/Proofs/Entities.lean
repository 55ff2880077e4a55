import Highlight.Proofs.Dispatch
import Highlight.Proofs.RawTextBodies

/-!
# Entities

An entity is an ampersand, a name or a number, and a semicolon. What is between the marks is taken
by one run of letters and digits, whichever of the two it is, and the semicolon then decides. So no
entity is missed: the digits of either radix are letters and digits. But a number is looked at no
further, and one that is garbled by a letter that is no digit of its radix is taken for an entity as
well. This is all that is wrongly taken, and every other ampersand is text by itself.
-/

namespace Highlight.Html

variable {state : State} {set : AsciiSet} {c : Char} {mark name s t w rest : List Char}

/-- What stands behind the ampersand, and the class of the characters that then follow: nothing in
front of a name, a number sign in front of a decimal number, and a letter behind it in front of a
hexadecimal one. -/
inductive Mark : List Char → AsciiSet → Prop where
  | name : Mark [] entityName
  | decimal : Mark ['#'] .digits
  | hexadecimal {x : Char} (hx : x = 'x' ∨ x = 'X') : Mark ['#', x] .hexDigits

inductive Entity : List Char → Prop where
  | mk {mark name : List Char} {set : AsciiSet} (hmark : Mark mark set) (hne : name ≠ [])
      (h : ∀ c ∈ name, set.has c = true) : Entity ('&' :: (mark ++ (name ++ [';'])))

/-- Whether what is behind a mark does not make another mark of it. -/
def Apart (mark name : List Char) : Prop :=
  mark = ['#'] → name.head? ≠ some 'x' ∧ name.head? ≠ some 'X'

/-- What is written like an entity by number, with a letter or digit that is none of its radix. -/
inductive Garbled : List Char → Prop where
  | mk {mark name : List Char} {set : AsciiSet} (hmark : Mark mark set) (hapart : Apart mark name)
      (h : ∀ c ∈ name, entityName.has c = true) (hletter : ∃ c ∈ name, set.has c = false) :
      Garbled ('&' :: (mark ++ (name ++ [';'])))

theorem Mark.entityName_of_has (h : Mark mark set) (hc : set.has c = true) :
    entityName.has c = true := by
  have hdigits : ∀ c ∈ AsciiSet.digits.members, entityName.has c = true := by decide
  have hhexDigits : ∀ c ∈ AsciiSet.hexDigits.members, entityName.has c = true := by decide
  cases h with
  | name => exact hc
  | decimal => exact hdigits c (AsciiSet.mem_members.2 hc)
  | hexadecimal => exact hhexDigits c (AsciiSet.mem_members.2 hc)

theorem Mark.apart (h : Mark mark set) (hname : ∀ c ∈ name, set.has c = true) :
    Apart mark name := by
  rintro rfl
  cases h with
  | decimal =>
      have hhead {c : Char} (hc : name.head? = some c) : AsciiSet.digits.has c = true :=
        hname c (List.mem_of_mem_head? hc)
      exact ⟨fun hx => absurd (hhead hx) (by decide), fun hx => absurd (hhead hx) (by decide)⟩

/-- An entity and what is garbled are letters and digits between the marks. -/
theorem entity_or_garbled_iff :
    Entity w ∨ Garbled w ↔ ∃ mark set name, Mark mark set ∧ Apart mark name ∧ name ≠ [] ∧
      (∀ c ∈ name, entityName.has c = true) ∧ w = '&' :: (mark ++ (name ++ [';'])) := by
  constructor
  · rintro (⟨hmark, hne, h⟩ | ⟨hmark, hapart, h, c, hc, -⟩)
    · exact ⟨_, _, _, hmark, hmark.apart h, hne, fun c hc => hmark.entityName_of_has (h c hc), rfl⟩
    · exact ⟨_, _, _, hmark, hapart, List.ne_nil_of_mem hc, h, rfl⟩
  · rintro ⟨mark, set, name, hmark, hapart, hne, h, rfl⟩
    by_cases hdigits : ∀ c ∈ name, set.has c = true
    · exact .inl ⟨hmark, hne, hdigits⟩
    · simp only [not_forall, Bool.not_eq_true, exists_prop] at hdigits
      exact .inr ⟨hmark, hapart, h, hdigits⟩

theorem behindRadix_append (hmark : Mark mark set) (hapart : Apart mark name) (hne : name ≠ [])
    (h : ∀ c ∈ name, entityName.has c = true) : behindRadix (mark ++ (name ++ t)) = name ++ t := by
  obtain ⟨c, u, rfl⟩ := List.exists_cons_of_ne_nil hne
  cases hmark with
  | name =>
      have hc : c ≠ '#' := ne_of_class (h c List.mem_cons_self) (by decide)
      show behindRadix (c :: (u ++ t)) = c :: (u ++ t)
      rw [behindRadix] <;> exact fun _ hs => absurd (List.cons.inj hs).1 hc
  | decimal =>
      obtain ⟨hx, hX⟩ := hapart rfl
      show behindRadix ('#' :: (c :: (u ++ t))) = c :: (u ++ t)
      rw [behindRadix]
      · exact fun _ hs => hx (congrArg some (List.cons.inj hs).1)
      · exact fun _ hs => hX (congrArg some (List.cons.inj hs).1)
  | hexadecimal hx => rcases hx with rfl | rfl <;> rfl

theorem exists_mark (s : List Char) :
    ∃ mark set, Mark mark set ∧ Apart mark (behindRadix s) ∧ s = mark ++ behindRadix s := by
  unfold behindRadix
  split
  · exact ⟨_, _, .hexadecimal (.inl rfl), nofun, rfl⟩
  · exact ⟨_, _, .hexadecimal (.inr rfl), nofun, rfl⟩
  · next s hx hX =>
      refine ⟨_, _, .decimal, fun _ => ⟨fun hs => ?_, fun hs => ?_⟩, rfl⟩
      · obtain ⟨t, rfl⟩ := List.head?_eq_some_iff.1 hs
        exact hx t rfl
      · obtain ⟨t, rfl⟩ := List.head?_eq_some_iff.1 hs
        exact hX t rfl
  · exact ⟨_, _, .name, nofun, rfl⟩

/-- What is taken for an entity is an entity or garbled, and none of either is missed. -/
theorem behindEntity?_eq_some_iff :
    behindEntity? s = some rest ↔ ∃ w, (Entity w ∨ Garbled w) ∧ '&' :: s = w ++ rest := by
  simp only [entity_or_garbled_iff]
  constructor
  · intro h
    obtain ⟨mark, set, hmark, hapart, hs⟩ := exists_mark s
    rw [behindEntity?] at h
    generalize behindRadix s = run at h hapart hs
    obtain ⟨⟨hlt, hend⟩, hrest⟩ := Option.ite_none_right_eq_some.1 h
    obtain ⟨u, hu⟩ := List.head?_eq_some_iff.1 hend
    rw [hu] at hlt hrest
    cases hrest
    have hrun := @List.takeWhile_append_dropWhile _ entityName.has run
    rw [hu] at hrun
    have hname : ∀ c ∈ run.takeWhile entityName.has, entityName.has c = true :=
      fun c hc => List.mem_takeWhile_imp hc
    generalize run.takeWhile entityName.has = name at hrun hname
    subst hrun hs
    have hne : name ≠ [] := by
      rintro rfl
      exact absurd hlt (Nat.lt_irrefl _)
    refine ⟨_, ⟨mark, set, name, hmark, ?_, hne, hname, rfl⟩, ?_⟩
    · obtain ⟨c, t, rfl⟩ := List.exists_cons_of_ne_nil hne
      exact hapart
    · simp only [List.cons_append, List.append_assoc, List.nil_append]
      rfl
  · rintro ⟨w, ⟨mark, set, name, hmark, hapart, hne, h, rfl⟩, hs⟩
    simp only [List.cons_append, List.append_assoc, List.cons.injEq, true_and] at hs
    have hstop : Stops entityName.has (';' :: rest) := .cons (by decide) rest
    have hradix : behindRadix s = name ++ ';' :: rest := by
      rw [hs]
      exact behindRadix_append hmark hapart hne h
    have hlt : (';' :: rest).length < (name ++ ';' :: rest).length := by
      rw [List.length_append]
      exact Nat.lt_add_of_pos_left (List.length_pos_iff.2 hne)
    rw [behindEntity?, hradix, hstop.dropWhile_append h, if_pos ⟨hlt, rfl⟩]
    rfl

/-- The states in which content is read: between tags, and behind the body of an element. -/
inductive State.InContent : State → Prop where
  | content : InContent .content
  | script {js : JavaScript.State} : InContent (.script js [])
  | style : InContent (.style [])

theorem State.InContent.step_eq (h : state.InContent) (c : Char) (s : List Char) :
    lexer.step state c s = stepContent c s := by
  cases h <;> rfl

theorem stepContent_ampersand (s : List Char) :
    stepContent '&' s = match behindEntity? s with
      | some rest => ⟨.nameEntity, rest, .content⟩
      | none => ⟨.text, s, .content⟩ := by
  rw [stepContent, firstOf_contentRules fun h => absurd h (by decide), scanEntity,
    if_neg (not_not.2 rfl)]
  cases behindEntity? s <;> rfl

/-- An ampersand in content begins an entity, or what is garbled, up to the semicolon, and otherwise
it is text by itself. -/
theorem step_ampersand (h : state.InContent) (s : List Char) :
    let next := lexer.step state '&' s
    let lexeme : Lexeme := ⟨next.kind, before ('&' :: s) next.rest⟩
    (∀ w, lexeme = ⟨.nameEntity, w⟩ ↔ w <+: '&' :: s ∧ (Entity w ∨ Garbled w)) ∧
      (lexeme = ⟨.text, ['&']⟩ ↔ ∀ w, w <+: '&' :: s → ¬ Entity w ∧ ¬ Garbled w) := by
  intro next lexeme
  have hnext : next = _ := (h.step_eq '&' s).trans (stepContent_ampersand s)
  have hlexeme : lexeme = ⟨next.kind, before ('&' :: s) next.rest⟩ := rfl
  cases hentity : behindEntity? s with
  | none =>
      rw [hnext, hentity] at hlexeme
      have htext : lexeme = ⟨.text, ['&']⟩ := hlexeme.trans (congrArg _ (before_append ['&'] s))
      have hnone : ∀ w, w <+: '&' :: s → ¬ (Entity w ∨ Garbled w) := by
        rintro w ⟨rest, hsplit⟩ hw
        rw [behindEntity?_eq_some_iff.2 ⟨w, hw, hsplit.symm⟩] at hentity
        cases hentity
      refine ⟨fun w => iff_of_false (fun hw => ?_) fun hw => hnone w hw.1 hw.2,
        iff_of_true htext fun w hw => not_or.1 (hnone w hw)⟩
      rw [htext] at hw
      cases hw
  | some rest =>
      obtain ⟨w, hw, hsplit⟩ := behindEntity?_eq_some_iff.1 hentity
      rw [hnext, hentity, hsplit] at hlexeme
      have hfound : lexeme = ⟨.nameEntity, w⟩ := hlexeme.trans (congrArg _ (before_append w rest))
      have hfront : w <+: '&' :: s := ⟨rest, hsplit.symm⟩
      refine ⟨fun v => ⟨fun hv => ?_, fun hv => ?_⟩, iff_of_false (fun htext => ?_) fun hnone => ?_⟩
      · obtain rfl : w = v := congrArg Lexeme.text (hfound.symm.trans hv)
        exact ⟨hfront, hw⟩
      · -- Both end at the one semicolon that the run leads to.
        obtain ⟨⟨rest', hsplit'⟩, hv⟩ := hv
        have hrest := behindEntity?_eq_some_iff.2 ⟨v, hv, hsplit'.symm⟩
        rw [hentity] at hrest
        cases hrest
        rw [hfound, List.append_cancel_right (hsplit.symm.trans hsplit'.symm)]
      · rw [hfound] at htext
        cases htext
      · exact hw.elim (hnone w hfront).1 (hnone w hfront).2

/-- Behind the body of a style sheet, and with another entity behind it. -/
theorem step_ampersand_hexadecimal :
    let next := lexer.step (.style []) '&' "#X1f;&#1;".toList
    (⟨next.kind, before "&#X1f;&#1;".toList next.rest⟩ : Lexeme) =
      ⟨.nameEntity, "&#X1f;".toList⟩ := by
  have hentity : Entity "&#X1f;".toList :=
    @Entity.mk ['#', 'X'] ['1', 'f'] _ (.hexadecimal (.inr rfl)) (by decide) (by decide)
  exact ((step_ampersand .style "#X1f;&#1;".toList).1 _).2 ⟨by decide, .inl hentity⟩

/-- Letters behind a number sign are no number, and are taken for an entity. -/
theorem lex_garbled :
    Language.html.lex "&#abc;".toList = [⟨.nameEntity, "&#abc;".toList⟩] ∧
      ¬ ∃ w, w <+: "&#abc;".toList ∧ Entity w := by
  refine ⟨by decide +kernel, ?_⟩
  rintro ⟨w, hfront, hentity⟩
  cases hentity with
  | @mk mark name set hmark hne h =>
      obtain ⟨c, t, rfl⟩ := List.exists_cons_of_ne_nil hne
      have hc := h c List.mem_cons_self
      have hfront := (List.cons_prefix_cons.1 hfront).2
      cases hmark with
      | name =>
          rw [(List.cons_prefix_cons.1 hfront).1] at hc
          exact absurd hc (by decide)
      | decimal =>
          rw [(List.cons_prefix_cons.1 (List.cons_prefix_cons.1 hfront).2).1] at hc
          exact absurd hc (by decide)
      | hexadecimal hx =>
          rw [(List.cons_prefix_cons.1 (List.cons_prefix_cons.1 hfront).2).1] at hx
          exact absurd hx (by decide)

end Highlight.Html
