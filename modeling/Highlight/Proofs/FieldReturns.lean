import Highlight.Proofs.CarriageReturns
import Highlight.Proofs.FStringLines

/-!
# Carriage returns in strings with fields

The text of a string with fields is taken apart like other quoted text, and a carriage return in
front of a newline makes no other difference to it: white space is passed over, and a string on a
single line ends at the newline, behind the return. Only a newline that is taken with a backslash in
front of it would make one, for then the return is taken and the newline is not.

But pieces come one after another, and a string on a single line may have come to its end where
nothing of it is left. If a field is closed in front of the newline, the text behind the field has
no character and there is no piece for it. With a return there is one, and the return is all of it.
So the two scans have to be told apart by what is next as well. `Meets` says where they may stand,
and `Lands` that a piece leaves them there unless it is the delimiter that leads back to text.
-/

namespace Highlight

variable {c : Char} {s s' rest rest' : List Char}

namespace TemplateSyntax

variable {style : TemplateSyntax}

theorem Quoted.ne_of_whitespace (h : style.Quoted) (hc : AsciiSet.whitespace.has c = true) :
    c ≠ style.quote :=
  ne_of_class hc h.has_whitespace

theorem opener_ne_of_whitespace (style : TemplateSyntax) (hc : AsciiSet.whitespace.has c = true) :
    c ≠ style.opener := by
  refine ne_of_class hc ?_
  rw [opener]
  split <;> decide

/-- White space that does not end the string is passed over. -/
theorem text_whitespace (h : style.Quoted) (hc : AsciiSet.whitespace.has c = true)
    (hstay : c ≠ '\n' ∨ style.singleLine = false) (s : List Char) :
    style.text (c :: s) = style.text s := by
  have hline : ¬ (c = '\n' ∧ style.singleLine = true) := by
    rintro ⟨hnewline, hsingle⟩
    rcases hstay with hne | hmulti
    · exact hne hnewline
    · rw [hmulti] at hsingle
      cases hsingle
  have hopens : ¬ style.OpensField c s := fun h => style.opener_ne_of_whitespace hc h.1
  have hnext : style.takesNext c = false := by
    have hescape : c ≠ '\x5c' := ne_of_class hc (by decide)
    have hbrace : c ≠ '\x7b' := ne_of_class hc (by decide)
    simp [takesNext, hescape, hbrace]
  rw [text_cons_of_ne h (h.ne_of_whitespace hc), if_neg hline, if_neg hopens, hnext,
    if_neg Bool.false_ne_true]

theorem text_newline (h : style.Quoted) (hsingle : style.singleLine = true) (s : List Char) :
    style.text ('\n' :: s) = (.unterminated, '\n' :: s) := by
  rw [text_cons_of_ne h (h.ne_of_whitespace rfl), if_pos ⟨rfl, hsingle⟩]

theorem specRest_newline (hsingle : style.singleLine = true) (s : List Char) :
    style.specRest ('\n' :: s) = '\n' :: s :=
  List.dropWhile_cons_of_neg (by simp [endsSpec, hsingle])

/-- A character decides what is next before it makes a difference that a newline has a return in
front of it, unless it takes the newline as it is. -/
theorem text_cons_withReturns (h : style.Quoted) (hc : c ≠ '\n') (s : List Char) :
    (∃ stop rest, style.text (c :: s) = (stop, rest) ∧
      style.text (c :: withReturns s) = (stop, withReturns rest)) ∨
    (∃ t, t <:+ s ∧ style.text (c :: s) = style.text t ∧
      style.text (c :: withReturns s) = style.text (withReturns t)) ∨
    ∃ t, s = '\n' :: t ∧ style.text (c :: s) = style.text t ∧
      style.text (c :: withReturns s) = style.text ('\n' :: withReturns t) := by
  by_cases hquote : c = style.quote
  · subst hquote
    have hquotes : ∀ c ∈ [style.quote, style.quote], AsciiSet.whitespace.has c = false := by
      simp [h.has_whitespace]
    rw [text_quote h, text_quote h, isPrefixOf?_withReturns hquotes]
    split
    · cases [style.quote, style.quote].isPrefixOf? s with
      | some behind => exact .inl ⟨.closed, behind, rfl, rfl⟩
      | none => exact .inr (.inl ⟨s, List.suffix_rfl, rfl, rfl⟩)
    · exact .inl ⟨.closed, s, rfl, rfl⟩
  · have hline : ¬ (c = '\n' ∧ style.singleLine = true) := fun hline => hc hline.1
    have hbrace : (withReturns s).head? = some '\x7b' ↔ s.head? = some '\x7b' :=
      head?_withReturns (by decide) (by decide)
    have hfield : style.OpensField c (withReturns s) ↔ style.OpensField c s :=
      and_congr_right fun _ => iff_congr hbrace Iff.rfl
    rw [text_cons_of_ne h hquote, text_cons_of_ne h hquote, if_neg hline, if_neg hline]
    by_cases hopens : style.OpensField c s
    · rw [if_pos hopens, if_pos (hfield.2 hopens)]
      exact .inl ⟨.field, c :: s, rfl, by rw [withReturns_cons hc]⟩
    · rw [if_neg hopens, if_neg fun hopens' => hopens (hfield.1 hopens')]
      split
      · match s with
        | [] => exact .inr (.inl ⟨[], List.suffix_rfl, rfl, rfl⟩)
        | d :: t =>
            by_cases hd : d = '\n'
            · subst hd
              exact .inr (.inr ⟨t, rfl, rfl, rfl⟩)
            · rw [withReturns_cons hd]
              exact .inr (.inl ⟨t, List.suffix_cons d t, rfl, rfl⟩)
      · exact .inr (.inl ⟨s, List.suffix_rfl, rfl, rfl⟩)

/-- Text that ends with its line stops at the newline that ends it. Elsewhere it stops where it
did. -/
theorem text_withReturns (h : style.Quoted) (s : List Char)
    (hline : style.singleLine = true → '\n' ∉ before s (style.text s).2) :
    (style.text (withReturns s)).1 = (style.text s).1 ∧
      ((style.text (withReturns s)).2 = withReturns (style.text s).2 ∨
        (style.text s).1 = .unterminated ∧ style.singleLine = true ∧
          ∃ t, (style.text s).2 = '\n' :: t ∧
            (style.text (withReturns s)).2 = '\n' :: withReturns t) := by
  match s with
  | [] =>
      rw [show withReturns [] = [] from rfl, text_nil]
      exact ⟨rfl, .inl rfl⟩
  | c :: s =>
      -- What is passed over with the first character leaves the same to be shown of the rest.
      have hshorter {t : List Char} (ht : t <:+ s) (heq : style.text (c :: s) = style.text t) :
          style.singleLine = true → '\n' ∉ before t (style.text t).2 := by
        intro hsingle
        rw [heq] at hline
        exact notMem_before (hline hsingle) (ht.trans (List.suffix_cons c s)) (text_suffix ..)
      by_cases hc : c = '\n'
      · subst hc
        rw [withReturns_newline, text_whitespace h rfl (.inl (by decide))]
        cases hsingle : style.singleLine with
        | true =>
            rw [text_newline h hsingle, text_newline h hsingle]
            exact ⟨rfl, .inr ⟨rfl, rfl, s, rfl, rfl⟩⟩
        | false =>
            have hpass (s : List Char) : style.text ('\n' :: s) = style.text s :=
              text_whitespace h rfl (.inr hsingle) s
            have hmore := text_withReturns h s (hshorter List.suffix_rfl (hpass s))
            rw [hsingle] at hmore
            rw [hpass, hpass]
            exact hmore
      · rw [withReturns_cons hc]
        rcases text_cons_withReturns h hc s with
          ⟨stop, rest, heq, heq'⟩ | ⟨t, ht, heq, heq'⟩ | ⟨t, rfl, heq, heq'⟩
        · rw [heq, heq']
          exact ⟨rfl, .inl rfl⟩
        · have hle := ht.length_le
          have hmore := text_withReturns h t (hshorter ht heq)
          rw [heq, heq']
          exact hmore
        · have hmore := text_withReturns h t (hshorter (List.suffix_cons '\n' t) heq)
          rw [heq, heq']
          cases hsingle : style.singleLine with
          | true =>
              -- The newline was taken, and a string on a single line takes none.
              obtain ⟨taken, htaken⟩ := style.text_suffix t
              have hnot := hline hsingle
              have hsplit : c :: '\n' :: t = (c :: '\n' :: taken) ++ (style.text t).2 := by
                rw [List.cons_append, List.cons_append, htaken]
              rw [heq, hsplit, before_append] at hnot
              exact absurd (List.mem_cons_of_mem c List.mem_cons_self) hnot
          | false =>
              rw [hsingle] at hmore
              rw [text_whitespace h rfl (.inr hsingle)]
              exact hmore
termination_by s.length

theorem samePlace_text {rest rest' : List Char} {P : Prop}
    (h : rest' = withReturns rest ∨ P ∧ style.singleLine = true ∧
      ∃ t, rest = '\n' :: t ∧ rest' = '\n' :: withReturns t) : SamePlace rest rest' := by
  rcases h with rfl | ⟨-, -, t, rfl, rfl⟩
  · exact .same _
  · exact .newline t

theorem opener?_withReturns (style : TemplateSyntax) (s : List Char) :
    style.opener? (withReturns s) = (style.opener? s).map withReturns := by
  cases s with
  | nil => rfl
  | cons c s =>
      by_cases hc : c = '\n'
      · subst hc
        rw [withReturns_newline, opener?, opener?, if_pos (style.opener_ne_of_whitespace rfl),
          if_pos (style.opener_ne_of_whitespace rfl)]
        rfl
      · have hbrace : (withReturns s).head? = some '\x7b' ↔ s.head? = some '\x7b' :=
          head?_withReturns (by decide) (by decide)
        rw [withReturns_cons hc, opener?, opener?, isPrefixOf?_withReturns (by decide)]
        simp only [hbrace]
        repeat' split
        all_goals rfl

/-- The text of a format specification ends with its line as literal text does. -/
theorem specRest_withReturns (h : style.Quoted) (s : List Char) :
    ((style.singleLine = true → (style.specRest s).head? ≠ some '\n') ∧
      style.specRest (withReturns s) = withReturns (style.specRest s)) ∨
    style.singleLine = true ∧ ∃ t, style.specRest s = '\n' :: t ∧
      style.specRest (withReturns s) = '\n' :: withReturns t := by
  have hnewline : '\n' ≠ style.quote := h.ne_of_whitespace rfl
  have hreturn : '\r' ≠ style.quote := h.ne_of_whitespace rfl
  cases hsingle : style.singleLine with
  | true =>
      rcases samePlace_dropWhile (p := fun c => !style.endsSpec c)
        (by simp [endsSpec, hsingle]) (by simp [endsSpec, hreturn]) s with
        ⟨hstay, heq⟩ | ⟨t, heq, heq'⟩
      · exact .inl ⟨fun _ => hstay, heq⟩
      · exact .inr ⟨rfl, t, heq, heq'⟩
  | false =>
      refine .inl ⟨fun h => absurd h (by decide), dropWhile_withReturns ?_ s⟩
      simp [endsSpec, hsingle, hnewline, hreturn]

/-- What is known of the strings of the languages: which quotes they have, and of which kind those
are that end with their line. -/
structure Suited (style : TemplateSyntax) : Prop where
  quoted : style.Quoted
  kind : style.singleLine = true → style.kind = .string

theorem Suited.kind_mem (h : style.Suited) (hsingle : style.singleLine = true) :
    style.kind ∈ lineKinds := by
  rw [h.kind hsingle]
  decide

end TemplateSyntax

/-! ## Pieces of strings

Two scans with the same frames are looked at side by side, one of the text and one of the text with
returns. They meet where their rests are at the same place, unless a newline is next that ends the
text of a string: the other scan would have the return left as text. A piece leads from where they
meet to where they meet, and only the delimiter that leads back to text may not. -/

namespace Nesting

variable {frame : Frame} {outer nesting nesting' : Nesting} {found found' : Match}

/-- Whether the text of a string is next, and a newline that ends it. -/
def Interrupted (nesting : Nesting) (s : List Char) : Prop :=
  nesting.inCode = false ∧ (∃ frame ∈ nesting.head?, frame.style.singleLine = true) ∧
    s.head? = some '\n'

/-- Where two scans stand, of a text and of the text with returns. -/
inductive Meets (nesting : Nesting) : List Char → List Char → Prop where
  | same (s : List Char) (h : ¬ nesting.Interrupted s) : Meets nesting s (withReturns s)
  | newline (s : List Char) : Meets nesting ('\n' :: s) ('\n' :: withReturns s)

theorem not_interrupted_of_inCode (h : nesting.inCode = true) (s : List Char) :
    ¬ nesting.Interrupted s := by
  rintro ⟨hin, -⟩
  rw [h] at hin
  cases hin

theorem not_interrupted_cons (h : frame.style.singleLine = true → s.head? ≠ some '\n') :
    ¬ Interrupted (frame :: outer) s := by
  rintro ⟨-, ⟨f, hf, hsingle⟩, hline⟩
  cases hf
  exact h hsingle hline

theorem meets_of_inCode (h : nesting.inCode = true) (hplace : SamePlace s s') :
    nesting.Meets s s' := by
  cases hplace with
  | same s => exact .same s (not_interrupted_of_inCode h s)
  | newline s => exact .newline s

theorem Meets.samePlace (h : Meets nesting s s') : SamePlace s s' := by
  cases h with
  | same s _ => exact .same s
  | newline t => exact .newline t

/-- Whether pieces were found of one kind, at places that meet. Behind a delimiter that leads back
to text this may fail: a newline that ends the text may be next. -/
structure Lands (s : List Char) (found found' : Match) (nesting : Nesting) : Prop where
  follows : found.Follows found'
  meets : nesting.Meets found.rest found'.rest ∨
    found.kind = .stringInterpol ∧ found'.rest = withReturns found.rest ∧
      (s = '\x7d' :: found.rest ∨ s = ':' :: found.rest)

/-- Whether two scans that have looked for a piece agree on it. -/
inductive Agree (s : List Char) : Option Match × Nesting → Option Match × Nesting → Prop where
  | code (nesting : Nesting) : Agree s (none, nesting) (none, nesting)
  | piece {found found' : Match} {nesting : Nesting} (h : Lands s found found' nesting) :
      Agree s (some found, nesting) (some found', nesting)

/-- A run of text is one in both scans, or in neither. -/
theorem run_agree {kind : Kind} {after : List Frame} (hs : rest <:+ s) (hs' : rest' <:+ s')
    (hiff : rest = s ↔ rest' = s') :
    (Frame.run kind after s rest = none ∧ Frame.run kind after s' rest' = none) ∨
      Frame.run kind after s rest = some (⟨kind, rest⟩, after) ∧
        Frame.run kind after s' rest' = some (⟨kind, rest'⟩, after) := by
  have hlt {s rest : List Char} (hs : rest <:+ s) : rest.length < s.length ↔ rest ≠ s := by
    have hle := hs.length_le
    constructor
    · rintro h rfl
      exact absurd h (Nat.lt_irrefl _)
    · intro hne
      exact Nat.lt_of_le_of_ne hle fun heq => hne (hs.eq_of_length heq)
  rw [Frame.run, Frame.run]
  by_cases hstay : rest = s
  · rw [if_neg fun h => (hlt hs).1 h hstay, if_neg fun h => (hlt hs').1 h (hiff.1 hstay)]
    exact .inl ⟨rfl, rfl⟩
  · rw [if_pos ((hlt hs).2 hstay), if_pos ((hlt hs').2 fun heq => hstay (hiff.2 heq))]
    exact .inr ⟨rfl, rfl⟩

theorem ne_cons_of_suffix (h : rest <:+ s) : rest ≠ c :: s := by
  rintro rfl
  exact absurd h.length_le (Nat.not_succ_le_self _)

theorem text_meets {style : TemplateSyntax} (h : style.Quoted)
    (hmeets : Meets (.text style :: outer) s s')
    (hline : style.singleLine = true → '\n' ∉ before s (style.text s).2) :
    (style.text s').1 = (style.text s).1 ∧ SamePlace (style.text s).2 (style.text s').2 ∧
      ((style.text s').2 = withReturns (style.text s).2 ∨
        (style.text s).1 = .unterminated ∧ style.singleLine = true) ∧
      ((style.text s).2 = s ↔ (style.text s').2 = s') := by
  cases hmeets with
  | same s hopen =>
      obtain ⟨hend, hplace⟩ := style.text_withReturns h s hline
      have hsame := TemplateSyntax.samePlace_text hplace
      refine ⟨hend, hsame, hplace.imp_right fun hstop => ⟨hstop.1, hstop.2.1⟩, ?_,
        hsame.eq_of_suffix (style.text_suffix s)⟩
      intro hstay
      rcases hplace with heq | ⟨-, hsingle, t, heq, -⟩
      · rw [heq, hstay]
      · refine absurd ?_ hopen
        exact ⟨rfl, ⟨.text style, rfl, hsingle⟩, by rw [← hstay, heq]; rfl⟩
  | newline t =>
      cases hsingle : style.singleLine with
      | true =>
          rw [style.text_newline h hsingle, style.text_newline h hsingle]
          exact ⟨rfl, .newline t, .inr ⟨rfl, rfl⟩, iff_of_true rfl rfl⟩
      | false =>
          have hpass (s : List Char) : style.text ('\n' :: s) = style.text s :=
            style.text_whitespace h rfl (.inr hsingle) s
          have hne (s : List Char) : (style.text s).2 ≠ '\n' :: s :=
            ne_cons_of_suffix (style.text_suffix s)
          obtain ⟨hend, hplace⟩ := style.text_withReturns h t (by rw [hsingle]; exact nofun)
          rw [hsingle] at hplace
          have hfull := hplace.resolve_right fun hstop => Bool.false_ne_true hstop.2.1
          rw [hpass, hpass]
          refine ⟨hend, ?_, .inl hfull, iff_of_false (hne t) (hne (withReturns t))⟩
          rw [hfull]
          exact .same _

theorem specRest_meets {style : TemplateSyntax} (h : style.Quoted)
    (hmeets : Meets (.spec style :: outer) s s') :
    Meets (.spec style :: outer) (style.specRest s) (style.specRest s') ∧
      (style.specRest s' = withReturns (style.specRest s) ∨ style.singleLine = true) ∧
      (style.specRest s = s ↔ style.specRest s' = s') := by
  cases hmeets with
  | same s hopen =>
      have hs := style.specRest_suffix s
      rcases style.specRest_withReturns h s with ⟨hnext, hfull⟩ | ⟨hsingle, t, heq, heq'⟩
      · rw [hfull]
        refine ⟨.same _ (not_interrupted_cons hnext), .inl rfl, fun hstay => by rw [hstay], ?_⟩
        exact (SamePlace.same _).eq_of_suffix hs
      · rw [heq] at hs
        rw [heq, heq']
        refine ⟨.newline t, .inr hsingle, ?_, (SamePlace.newline t).eq_of_suffix hs⟩
        rintro rfl
        exact absurd ⟨rfl, ⟨.spec style, rfl, hsingle⟩, rfl⟩ hopen
  | newline t =>
      have hquote : '\n' ≠ style.quote := h.ne_of_whitespace rfl
      cases hsingle : style.singleLine with
      | true =>
          rw [style.specRest_newline hsingle, style.specRest_newline hsingle]
          exact ⟨.newline t, .inr rfl, iff_of_true rfl rfl⟩
      | false =>
          have hpass (s : List Char) : style.specRest ('\n' :: s) = style.specRest s :=
            List.dropWhile_cons_of_pos (by simp [TemplateSyntax.endsSpec, hsingle, hquote])
          have hne (s : List Char) : style.specRest s ≠ '\n' :: s :=
            ne_cons_of_suffix (style.specRest_suffix s)
          rcases style.specRest_withReturns h t with ⟨hnext, hfull⟩ | ⟨hfalse, -⟩
          · rw [hpass, hpass, hfull]
            refine ⟨.same _ (not_interrupted_cons hnext), .inl rfl, iff_of_false (hne t) ?_⟩
            rw [← hfull]
            exact hne (withReturns t)
          · rw [hsingle] at hfalse
            cases hfalse

/-- Behind a run of text a field opens, or the scan is in code. -/
theorem meets_behind_text {style : TemplateSyntax} (hin : outer.inCode = true)
    (hplace : SamePlace (style.text s).2 rest')
    (hfull : rest' = withReturns (style.text s).2 ∨ (style.text s).1 = .unterminated) :
    Meets ((if (style.text s).1 = .field then [.text style] else []) ++ outer) (style.text s).2
      rest' := by
  by_cases hfield : (style.text s).1 = .field
  · obtain ⟨code, hcode⟩ := TemplateSyntax.exists_opener?_of_text hfield
    have hsame := hfull.resolve_right (by rw [hfield]; exact nofun)
    rw [if_pos hfield, hsame]
    refine .same _ (not_interrupted_cons fun _ hhead => ?_)
    obtain ⟨t, ht⟩ := List.head?_eq_some_iff.1 hhead
    rw [ht, TemplateSyntax.opener?, if_pos (style.opener_ne_of_whitespace rfl)] at hcode
    cases hcode
  · rw [if_neg hfield]
    exact meets_of_inCode hin hplace

theorem literal_of_scan (hcode : frame.isCode = false) (s : List Char) :
    literal (frame :: outer) s = match frame.scan s with
      | some (found, frames) => (some found, frames ++ outer)
      | none => (none, outer) :=
  if_neg (Bool.eq_false_iff.1 hcode)

theorem literal_text_agree {style : TemplateSyntax} (h : style.Suited)
    (hin : outer.inCode = true) (hmeets : Meets (.text style :: outer) s s')
    (hline : style.singleLine = true → ∀ found after, found.kind = .string →
      literal (.text style :: outer) s = (some found, after) → '\n' ∉ before s found.rest) :
    Agree s (literal (.text style :: outer) s) (literal (.text style :: outer) s') := by
  rw [literal_of_scan rfl] at hline
  rw [literal_of_scan rfl, literal_of_scan rfl, Frame.scan, Frame.scan]
  rw [Frame.scan] at hline
  cases hopener : style.opener? s with
  | some rest =>
      have hopener' : style.opener? s' = some (withReturns rest) := by
        cases hmeets with
        | same s hopen => rw [TemplateSyntax.opener?_withReturns, hopener]; rfl
        | newline t =>
            rw [TemplateSyntax.opener?, if_pos (style.opener_ne_of_whitespace rfl)] at hopener
            cases hopener
      rw [hopener']
      exact .piece ⟨Match.follows_withReturns ⟨.stringInterpol, rest⟩,
        .inl (meets_of_inCode rfl (.same rest))⟩
  | none =>
      have hopener' : style.opener? s' = none := by
        cases hmeets with
        | same s hopen => rw [TemplateSyntax.opener?_withReturns, hopener]; rfl
        | newline t => rw [TemplateSyntax.opener?, if_pos (style.opener_ne_of_whitespace rfl)]
      rw [hopener] at hline
      rw [hopener']
      dsimp only at hline ⊢
      have hnot : style.singleLine = true → '\n' ∉ before s (style.text s).2 := by
        intro hsingle
        cases hrun : Frame.run style.kind
          (if (style.text s).1 = .field then [.text style] else []) s (style.text s).2 with
        | none =>
            have hempty : before s s = [] := before_append [] s
            rw [Frame.run_eq_none (style.text_suffix s) hrun, hempty]
            exact List.not_mem_nil
        | some r =>
            cases Frame.eq_of_run hrun
            exact hline hsingle _ _ (h.kind hsingle) (by rw [hrun])
      obtain ⟨hend, hplace, hfull, hiff⟩ := text_meets h.quoted hmeets hnot
      rw [hend]
      rcases run_agree (style.text_suffix s) (style.text_suffix s') hiff with
        ⟨hnone, hnone'⟩ | ⟨hsome, hsome'⟩
      · rw [hnone, hnone']
        exact .code outer
      · rw [hsome, hsome']
        refine .piece ⟨⟨rfl, hplace, fun hkind => ?_⟩, .inl ?_⟩
        · exact hfull.resolve_right fun hstop => hkind (h.kind_mem hstop.2)
        · exact meets_behind_text hin hplace (hfull.imp_right And.left)

/-- A delimiter behind which there may be text. -/
theorem agree_closing (hc : c = '\x7d' ∨ c = ':') (s : List Char) (nesting : Nesting) :
    Agree (c :: s) (some ⟨.stringInterpol, s⟩, nesting)
      (some ⟨.stringInterpol, withReturns s⟩, nesting) := by
  refine .piece ⟨Match.follows_withReturns ⟨.stringInterpol, s⟩, .inr ⟨rfl, rfl, ?_⟩⟩
  exact hc.imp (congrArg (· :: s)) (congrArg (· :: s))

theorem literal_spec_agree {style : TemplateSyntax} (h : style.Suited)
    (hmeets : Meets (.spec style :: outer) s s') :
    Agree s (literal (.spec style :: outer) s) (literal (.spec style :: outer) s') := by
  rw [literal_of_scan rfl, literal_of_scan rfl]
  by_cases hbrace : s.head? = some '\x7b' ∨ s.head? = some '\x7d'
  · -- A delimiter is next, and it is in the other text.
    obtain ⟨t, ht⟩ : ∃ t, s = '\x7b' :: t ∨ s = '\x7d' :: t := by
      rcases hbrace with hhead | hhead
      · exact (List.head?_eq_some_iff.1 hhead).imp fun t => .inl
      · exact (List.head?_eq_some_iff.1 hhead).imp fun t => .inr
    have hfull : s' = withReturns s := by
      cases hmeets with
      | same s _ => rfl
      | newline u => rcases ht with ht | ht <;> cases ht
    subst hfull
    rcases ht with rfl | rfl
    · exact .piece ⟨Match.follows_withReturns ⟨.stringInterpol, t⟩,
        .inl (meets_of_inCode rfl (.same t))⟩
    · exact agree_closing (.inl rfl) t outer
  · obtain ⟨hnext, hfull, hiff⟩ := specRest_meets h.quoted hmeets
    have hhead {c : Char} (hline : c ≠ '\n') (hreturn : c ≠ '\r') (hne : s.head? ≠ some c) :
        s'.head? ≠ some c := by
      cases hmeets with
      | same s _ => exact fun heq => hne ((head?_withReturns hline hreturn).1 heq)
      | newline t => exact hne
    obtain ⟨hopen, hclose⟩ := not_or.1 hbrace
    rw [Frame.scan_spec_of_ne hopen hclose, Frame.scan_spec_of_ne (hhead (by decide) (by decide) hopen)
      (hhead (by decide) (by decide) hclose)]
    rcases run_agree (style.specRest_suffix s) (style.specRest_suffix s') hiff with
      ⟨hnone, hnone'⟩ | ⟨hsome, hsome'⟩
    · rw [hnone, hnone']
      exact .code outer
    · rw [hsome, hsome']
      refine .piece ⟨⟨rfl, hnext.samePlace, fun hkind => ?_⟩, .inl hnext⟩
      exact hfull.resolve_right fun hsingle => hkind (h.kind_mem hsingle)

/-- Of the frame below one that has ended. -/
theorem Meets.below (h : Meets (frame :: outer) s s') (hlies : frame.LiesOn outer)
    (hcode : frame.isCode = false) : Meets outer s s' := by
  cases h with
  | newline t => exact .newline t
  | same s hopen =>
      cases frame with
      | field style depth => cases hcode
      | text style => exact .same s (not_interrupted_of_inCode (Frame.inCode_of_liesOn hlies) s)
      | spec style =>
          obtain ⟨below, rfl | rfl⟩ := hlies
          · exact .same s (not_interrupted_cons fun hsingle hline =>
              hopen ⟨rfl, ⟨_, rfl, hsingle⟩, hline⟩)
          · exact .same s hopen

theorem settle_of_inCode (h : nesting.inCode = true) (s : List Char) :
    nesting.settle s = (none, nesting) := by
  cases nesting with
  | nil => rfl
  | cons frame outer =>
      have hcode : frame.isCode = true := h
      rw [settle, if_pos hcode]

theorem settle_of_literal_some (hcode : frame.isCode = false)
    (h : literal (frame :: outer) s = (some found, nesting)) :
    settle (frame :: outer) s = (some found, nesting) := by
  rw [literal_of_scan hcode] at h
  rw [settle, if_neg (Bool.eq_false_iff.1 hcode)]
  cases hscan : frame.scan s with
  | none =>
      rw [hscan] at h
      cases h
  | some r =>
      rw [hscan] at h
      exact h

theorem settle_of_literal_none (hcode : frame.isCode = false)
    (h : literal (frame :: outer) s = (none, nesting)) :
    settle (frame :: outer) s = settle outer s := by
  rw [literal_of_scan hcode] at h
  rw [settle, if_neg (Bool.eq_false_iff.1 hcode)]
  cases hscan : frame.scan s with
  | none => rfl
  | some r =>
      rw [hscan] at h
      cases h

/-- The texts of strings are taken apart alike, but for a text on a single line that goes on in the
next. -/
theorem settle_agree (hstacked : Stacked nesting) (hstyled : Styled TemplateSyntax.Suited nesting)
    (hmeets : Meets nesting s s')
    (hline : ∀ frame ∈ nesting.head?, frame.style.singleLine = true → ∀ found after,
      found.kind = .string → nesting.settle s = (some found, after) →
        '\n' ∉ before s found.rest) :
    Agree s (nesting.settle s) (nesting.settle s') := by
  induction nesting with
  | nil => exact .code []
  | cons frame outer ih =>
      obtain ⟨hlies, hstackedOuter⟩ := stacked_cons.1 hstacked
      obtain ⟨hframe, hstyledOuter⟩ := styled_cons.1 hstyled
      by_cases hcode : frame.isCode = true
      · rw [settle, settle, if_pos hcode, if_pos hcode]
        exact .code _
      · have hcode : frame.isCode = false := Bool.not_eq_true _ ▸ hcode
        have hagree : Agree s (literal (frame :: outer) s) (literal (frame :: outer) s') := by
          cases frame with
          | field style depth => cases hcode
          | text style =>
              refine literal_text_agree hframe (Frame.inCode_of_liesOn hlies) hmeets ?_
              intro hsingle found after hkind hfound
              exact hline _ rfl hsingle found after hkind (settle_of_literal_some hcode hfound)
          | spec style => exact literal_spec_agree hframe hmeets
        generalize hscan : literal (frame :: outer) s = scanned at hagree
        generalize hscan' : literal (frame :: outer) s' = scanned' at hagree
        cases hagree with
        | piece hlands =>
            rw [settle_of_literal_some hcode hscan, settle_of_literal_some hcode hscan']
            exact .piece hlands
        | code after =>
            rw [settle_of_literal_none hcode hscan] at hline ⊢
            rw [settle_of_literal_none hcode hscan']
            refine ih hstackedOuter hstyledOuter (hmeets.below hlies hcode) fun below hbelow => ?_
            intro hsingle
            -- Only a specification has text below it, of its own string.
            cases frame with
            | field style depth => cases hcode
            | text style =>
                intro found after hkind hfound
                rw [settle_of_inCode (Frame.inCode_of_liesOn hlies)] at hfound
                cases hfound
            | spec style =>
                obtain ⟨rest, rfl | rfl⟩ := hlies <;> cases hbelow
                · exact hline _ rfl hsingle
                · exact hline _ rfl hsingle

theorem crossesLine_withReturns (s : List Char) : crossesLine (withReturns s) = crossesLine s :=
  contains_takeWhile_withReturns (by decide) (by decide) s

/-- Code has its characters looked at alike. -/
theorem delimiter_agree (hin : nesting.inCode = true) (hplace : SamePlace s s') :
    Agree s (nesting.delimiter s) (nesting.delimiter s') := by
  cases nesting with
  | nil => exact .code []
  | cons frame outer =>
      cases frame with
      | text style => cases hin
      | spec style => cases hin
      | field style depth =>
          have hblank {c : Char} (hc : c = ' ' ∨ c = '\t' ∨ c = '\x0d' ∨ c = '\n')
              (s : List Char) := delimiter_blank hc style depth outer s
          cases hplace with
          | newline t =>
              have hcross (s : List Char) : crossesLine ('\n' :: s) = true := rfl
              rw [hblank (by simp), hblank (by simp), hcross, hcross]
              split <;> exact .code _
          | same s =>
              cases s with
              | nil => exact .code _
              | cons c s =>
                  have hcross := crossesLine_withReturns (c :: s)
                  by_cases hc : c = '\n'
                  · subst hc
                    rw [withReturns_newline] at hcross ⊢
                    rw [hblank (by simp), hblank (by simp), hcross]
                    split <;> exact .code _
                  · rw [withReturns_cons hc] at hcross ⊢
                    unfold delimiter
                    dsimp only
                    rw [hcross]
                    repeat' split
                    all_goals first
                      | exact .code _
                      | exact agree_closing (.inl rfl) s _
                      | exact agree_closing (.inr rfl) s _

/-- Where a scan looks for pieces and delimiters it finds those of the text, but for a text on a
single line that goes on in the next. -/
theorem look_agree (hreach : Reachable nesting s) (hstyled : Styled TemplateSyntax.Suited nesting)
    (hmeets : Meets nesting s s')
    (hline : ∀ frame ∈ nesting.head?, frame.style.singleLine = true → ∀ found after,
      found.kind = .string → nesting.look s = (some found, after) → '\n' ∉ before s found.rest) :
    Agree s (nesting.look s) (nesting.look s') := by
  have hsettle := settle_agree hreach.stacked hstyled hmeets fun frame hframe hsingle found after
    hkind hfound => hline frame hframe hsingle found after hkind (by rw [look, hfound])
  rw [look, look]
  generalize heq : nesting.settle s = scanned at hsettle
  generalize nesting.settle s' = scanned' at hsettle
  cases hsettle with
  | piece hlands => exact .piece hlands
  | code inner => exact delimiter_agree (hreach.of_settle_none heq).2 hmeets.samePlace

theorem enter_agree {style : TemplateSyntax} {body : List Char} (h : style.Suited)
    (hin : nesting.inCode = true)
    (hline : style.singleLine = true → '\n' ∉ before body (nesting.enter style body).1.rest) :
    (nesting.enter style (withReturns body)).2 = (nesting.enter style body).2 ∧
      (nesting.enter style body).1.Follows (nesting.enter style (withReturns body)).1 ∧
      Meets (nesting.enter style body).2 (nesting.enter style body).1.rest
        (nesting.enter style (withReturns body)).1.rest := by
  obtain ⟨hend, hplace⟩ := style.text_withReturns h.quoted body hline
  have hsame := TemplateSyntax.samePlace_text hplace
  have hframes : (nesting.enter style body).2 =
      (if (style.text body).1 = .field then [.text style] else []) ++ nesting := by
    rw [enter]
    dsimp only
    split <;> rfl
  refine ⟨?_, ⟨rfl, hsame, fun hkind => ?_⟩, ?_⟩
  · rw [enter, enter]
    dsimp only
    rw [hend]
  · exact hplace.resolve_right fun hstop => hkind (h.kind_mem hstop.2.1)
  · rw [hframes]
    exact meets_behind_text hin hsame (hplace.imp_right And.left)

end Nesting

end Highlight
