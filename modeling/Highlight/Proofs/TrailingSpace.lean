import Highlight.Proofs.SpaceLexemes
import Highlight.Proofs.Stripping

/-!
# What stripping drops

What is dropped is white space in front of a line break or of the end of the text. Nothing in it is
a newline, so if it has no carriage return either, it is blanks that end a line, and that is what
one means to strip.

A carriage return in it is another matter. One that belongs to the line break stays, but only the
last one can. Any other goes with the line it is on, and then neither it nor what is in front of it
has blanks and a break behind. So whether a character had to go can be told from what is dropped
from there on: there is no carriage return in it, or there is nothing but white space behind. That
the break itself is not cut in two is due to the lexemes.
-/

namespace Highlight

variable {line behind after space : List Char} {front back : List Piece} {piece : Piece}
  {lexemes : List Lexeme}

/-- Whether a text begins with white space that goes on to its end, or with blanks in front of a
line break. -/
def Trailing (s : List Char) : Prop :=
  Blank s ∨ ∃ run rest, run ≠ [] ∧ (∀ c ∈ run, AsciiSet.horizontalSpace.has c = true) ∧
    s = run ++ rest ∧ (['\n'] <+: rest ∨ ['\r', '\n'] <+: rest)

/-- White space on one line, and behind it a line break that is not cut in two, or nothing. -/
structure LineEnd (line behind : List Char) : Prop where
  blank : Blank line
  unbroken : '\n' ∉ line
  ends : behind = [] ∨ ['\n'] <+: behind ∧ line.getLast? ≠ some '\r' ∨ ['\r', '\n'] <+: behind

theorem horizontalSpace_of_blank (hblank : Blank line) (hnewline : '\n' ∉ line)
    (hreturn : '\r' ∉ line) : ∀ c ∈ line, AsciiSet.horizontalSpace.has c = true := by
  intro c hc
  have hmembers : ∀ d ∈ AsciiSet.whitespace.members,
      d = '\n' ∨ d = '\r' ∨ AsciiSet.horizontalSpace.has d = true := by decide
  rcases hmembers c (AsciiSet.mem_members.2 (hblank c hc)) with rfl | rfl | hspace
  · exact absurd hc hnewline
  · exact absurd hc hreturn
  · exact hspace

/-- Where blanks run up to the line break there is no carriage return in front of it. -/
theorem LineEnd.notMem_return (h : LineEnd line behind) {run rest : List Char}
    (hrun : ∀ c ∈ run, AsciiSet.horizontalSpace.has c = true) (hsplit : line ++ behind = run ++ rest)
    (hbreak : ['\n'] <+: rest ∨ ['\r', '\n'] <+: rest) : '\r' ∉ line := by
  intro hmem
  obtain ⟨first, more, rfl, hfirst⟩ := List.eq_append_cons_of_mem hmem
  rw [List.append_assoc, List.cons_append] at hsplit
  have hspace : ∀ c ∈ first, AsciiSet.horizontalSpace.has c = true :=
    horizontalSpace_of_blank (blank_append.1 h.blank).1
      (fun hc => h.unbroken (List.mem_append_left _ hc)) hfirst
  have hstop : Stops AsciiSet.horizontalSpace.has rest := by
    rcases hbreak with ⟨t, rfl⟩ | ⟨t, rfl⟩
    · exact .cons (by decide) _
    · exact .cons (by decide) _
  -- Both sides go on where the blanks end.
  have hrest : '\r' :: (more ++ behind) = rest := by
    rw [← hstop.dropWhile_append hrun, ← hsplit]
    exact ((Stops.cons (by decide) _).dropWhile_append hspace).symm
  obtain ⟨t, ht⟩ : ∃ t, more ++ behind = '\n' :: t := by
    rw [← hrest] at hbreak
    rcases hbreak with ⟨t, ht⟩ | ⟨t, ht⟩
    · cases ht
    · exact ⟨t, (List.cons.inj ht).2.symm⟩
  cases more with
  | cons d more =>
      obtain rfl : d = '\n' := (List.cons.inj ht).1
      exact h.unbroken (by simp)
  | nil =>
      rw [List.nil_append] at ht
      rcases h.ends with hnil | ⟨-, hlast⟩ | ⟨t', ht'⟩
      · rw [hnil] at ht
        cases ht
      · exact hlast List.getLast?_concat
      · rw [ht] at ht'
        cases ht'

theorem LineEnd.trailing_iff (h : LineEnd line behind) (hne : line ≠ []) :
    Trailing (line ++ behind) ↔ '\r' ∉ line ∨ Blank behind := by
  constructor
  · rintro (hblank | ⟨run, rest, -, hrun, hsplit, hbreak⟩)
    · exact .inr (blank_append.1 hblank).2
    · exact .inl (h.notMem_return hrun hsplit hbreak)
  · rintro (hreturn | hblank)
    · have hspace := horizontalSpace_of_blank h.blank h.unbroken hreturn
      rcases h.ends with rfl | ⟨hbreak, -⟩ | hbreak
      · rw [List.append_nil]
        exact .inl h.blank
      · exact .inr ⟨line, behind, hne, hspace, rfl, .inl hbreak⟩
      · exact .inr ⟨line, behind, hne, hspace, rfl, .inr hbreak⟩
    · exact .inl (blank_append.2 ⟨h.blank, hblank⟩)

/-- What is dropped from some character on ends the line as well. -/
theorem LineEnd.of_append {passed : List Char} (h : LineEnd (passed ++ line) behind)
    (hne : line ≠ []) : LineEnd line behind := by
  refine ⟨(blank_append.1 h.blank).2, fun hmem => h.unbroken (List.mem_append_right _ hmem), ?_⟩
  rw [← List.getLast?_append_of_ne_nil passed hne]
  exact h.ends

/-- An element of two lists one behind the other is in either of them. -/
theorem append_eq_append_cons {α : Type} {xs ys front back : List α} {x : α}
    (h : xs ++ ys = front ++ x :: back) :
    (∃ more, xs = front ++ x :: more ∧ back = more ++ ys) ∨
      ∃ first, front = xs ++ first ∧ ys = first ++ x :: back := by
  rcases List.append_eq_append_iff.1 h with ⟨first, hfront, hys⟩ | ⟨more, hxs, hback⟩
  · exact .inr ⟨first, hfront, hys⟩
  · cases more with
    | nil => exact .inr ⟨[], by rw [hxs, List.append_nil, List.append_nil], hback.symm⟩
    | cons y more =>
        obtain ⟨rfl, htail⟩ := List.cons.inj hback
        exact .inl ⟨more, hxs, htail⟩

namespace Piece

theorem eq_of_pair {first second : Piece} (h : [first, second] = front ++ piece :: back)
    (hkept : second.kept = true) (hdropped : piece.kept = false) :
    piece = first ∧ back = [second] := by
  match front with
  | [] =>
      cases h
      exact ⟨rfl, rfl⟩
  | [_] =>
      cases h
      rw [hkept] at hdropped
      cases hdropped
  | _ :: _ :: front => simp at h

theorem lineEnd_of_ofLine (hblank : Blank line) (hline : '\n' ∉ line)
    (h : ofLine line = front ++ piece :: back) (hdropped : piece.kept = false) :
    LineEnd piece.lexeme.text ((back.flatMap fun piece => piece.lexeme.text) ++ behind) := by
  rw [ofLine] at h
  split at h
  · next hlast =>
      obtain ⟨rfl, rfl⟩ := eq_of_pair h rfl hdropped
      have hsub := List.dropLast_subset line
      exact ⟨fun c hc => hblank c (hsub hc), fun hmem => hline (hsub hmem),
        .inr (.inr ⟨behind, rfl⟩)⟩
  · next hlast =>
      obtain ⟨rfl, rfl⟩ := eq_of_pair h rfl hdropped
      exact ⟨hblank, hline, .inr (.inl ⟨⟨behind, rfl⟩, hlast⟩)⟩

theorem lineEnd_of_ofSpace (hspace : Space space after)
    (h : ofSpace after space = front ++ piece :: back) (hdropped : piece.kept = false)
    (hne : piece.lexeme.text ≠ []) :
    LineEnd piece.lexeme.text ((back.flatMap fun piece => piece.lexeme.text) ++ after) := by
  induction space using lines_induction generalizing front with
  | last line hline =>
      rw [ofSpace_of_notMem hline] at h
      rcases List.singleton_eq_append_iff.1 h with ⟨rfl, hsingle⟩ | ⟨-, hnone⟩
      · obtain ⟨rfl, rfl⟩ := List.cons.inj hsingle
        rw [Bool.not_eq_false', Bool.or_eq_true, List.isEmpty_iff] at hdropped
        refine ⟨hspace.blank, hline, ?_⟩
        rcases atLineEnd_iff.1 (hdropped.resolve_left hne) with hafter | hafter | hafter
        · exact .inl hafter
        · obtain ⟨t, rfl⟩ := hafter
          exact .inr (.inl ⟨⟨t, rfl⟩, fun hlast => hspace.uncut hlast rfl⟩)
        · exact .inr (.inr hafter)
      · cases hnone
  | more line space hline ih =>
      rw [ofSpace_append hline] at h
      rcases append_eq_append_cons h with ⟨pieces, hpieces, rfl⟩ | ⟨first, -, hsplit⟩
      · rw [List.flatMap_append, List.append_assoc]
        exact lineEnd_of_ofLine (blank_append.1 hspace.blank).1 hline hpieces hdropped
      · have hsuffix : space <:+ line ++ '\n' :: space :=
          (List.suffix_cons '\n' space).trans (List.suffix_append ..)
        exact ih (hspace.of_suffix hsuffix) hsplit

/-- Whatever is dropped ends a line, since no lexeme of white space cuts a line break in two. -/
theorem lineEnd_of_ofLexemes
    (hspace : ∀ front lexeme back, lexemes = front ++ lexeme :: back → lexeme.kind = .whitespace →
      Space lexeme.text (back.flatMap Lexeme.text))
    (h : ofLexemes true (lexemes.flatMap Lexeme.text) lexemes = front ++ piece :: back)
    (hdropped : piece.kept = false) (hne : piece.lexeme.text ≠ []) :
    LineEnd piece.lexeme.text (back.flatMap fun piece => piece.lexeme.text) := by
  induction lexemes generalizing front with
  | nil => simp [ofLexemes] at h
  | cons lexeme more ih =>
      rw [ofLexemes, List.flatMap_cons, List.drop_left] at h
      rcases append_eq_append_cons h with ⟨rest, hfirst, rfl⟩ | ⟨first, -, hmore⟩
      · rw [List.flatMap_append, flatMap_text_ofLexemes]
        split at hfirst
        · next hkind =>
            exact lineEnd_of_ofSpace (hspace [] lexeme more rfl hkind.2) hfirst hdropped hne
        · rcases List.singleton_eq_append_iff.1 hfirst with ⟨-, hsingle⟩ | ⟨-, hnone⟩
          · obtain ⟨rfl, -⟩ := List.cons.inj hsingle
            cases hdropped
          · cases hnone
      · refine ih (fun front lexeme' back hsplit => ?_) hmore
        exact hspace (lexeme :: front) lexeme' back (by rw [hsplit, List.cons_append])

end Piece

/-- What is missing where white space is stripped, from any character of it on: it is white space on
one line, with a line break or the end of the range behind it. It had to go, as blanks in front of a
line break or as part of the white space that ends the range, unless there is a carriage return in
it and something else than white space behind. -/
theorem Language.tokenizeRange_dropped (language : Language) (text : List Char) (range : ByteRange)
    (tabSize : Nat) :
    let code := range.slice text
    let pieces := Piece.ofLexemes true code (language.lexRange text range)
    language.tokenizeRange text range { strip := true, tabSize } =
        Token.placed (max tabSize 1) [] pieces ∧
      pieces.flatMap (fun piece => piece.lexeme.text) = code ∧
      ∀ front piece back passed c more, pieces = front ++ piece :: back → piece.kept = false →
        piece.lexeme.text = passed ++ c :: more →
        let behind := back.flatMap fun piece => piece.lexeme.text
        LineEnd (c :: more) behind ∧
          (Trailing (c :: more ++ behind) ↔ '\r' ∉ c :: more ∨ Blank behind) := by
  intro code pieces
  have htile : (language.lexRange text range).flatMap Lexeme.text = code :=
    language.flatMap_text_lexRange text range
  refine ⟨language.tokenizeRange_eq_placed text range _, ?_, ?_⟩
  · rw [Piece.flatMap_text_ofLexemes, htile]
  · intro front piece back passed c more hsplit hdropped htext behind
    have hpieces : Piece.ofLexemes true ((language.lexRange text range).flatMap Lexeme.text)
        (language.lexRange text range) = front ++ piece :: back := by
      rw [htile]
      exact hsplit
    rw [language.lexRange_eq_lex] at hpieces
    have hne : piece.lexeme.text ≠ [] := by
      rw [htext]
      exact List.append_ne_nil_of_right_ne_nil _ (List.cons_ne_nil c more)
    have hline := Piece.lineEnd_of_ofLexemes (fun _ _ _ h hkind => language.space_of_lex h hkind)
      hpieces hdropped hne
    rw [htext] at hline
    have hmissing := hline.of_append (List.cons_ne_nil c more)
    exact ⟨hmissing, hmissing.trailing_iff (List.cons_ne_nil c more)⟩

/-- A carriage return in front of a blank that ends its line goes with the blank. -/
theorem carriageReturn_dropped :
    Language.json.tokenizeRange "1\r \n2".toList ⟨0, 5⟩ { strip := true, tabSize := 4 } =
        [⟨.numberInteger, ['1'], ⟨1, 1⟩⟩, ⟨.whitespace, ['\n'], ⟨1, 4⟩⟩,
          ⟨.numberInteger, ['2'], ⟨2, 1⟩⟩] ∧
      Piece.ofLexemes true "1\r \n2".toList (Language.json.lexRange "1\r \n2".toList ⟨0, 5⟩) =
        [⟨⟨.numberInteger, ['1']⟩, true⟩] ++ ⟨⟨.whitespace, ['\r', ' ']⟩, false⟩ ::
          [⟨⟨.whitespace, ['\n']⟩, true⟩, ⟨⟨.whitespace, []⟩, false⟩,
            ⟨⟨.numberInteger, ['2']⟩, true⟩] ∧
      ¬ Trailing (['\r', ' '] ++ ['\n', '2']) := by
  refine ⟨by decide +kernel, by decide +kernel, ?_⟩
  rintro (hblank | ⟨run, rest, hne, hrun, hsplit, -⟩)
  · exact absurd (hblank '2' (by decide)) (by decide)
  · obtain ⟨c, run, rfl⟩ := List.exists_cons_of_ne_nil hne
    obtain rfl : '\r' = c := (List.cons.inj hsplit).1
    exact absurd (hrun '\r' List.mem_cons_self) (by decide)

end Highlight
