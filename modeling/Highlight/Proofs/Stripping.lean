import Highlight.Proofs.Positions

/-!
# What stripping leaves

Stripping makes other tokens of white space and leaves all else as it is. What it may make of it is
said here without a word on how it cuts: `Strips` relates the tokens of a text with those that are
left of them. Where one is no white space it is itself what is left, and where it is, there are
slices of it, each a line break or a part of a line that goes on, and with them all of its newlines.

Since a slice has the position that its first character has in the text, the relation tells where
the slices are taken from. That the whole list is related is an induction on lexemes, and for one
lexeme one on its lines. The only thing to look at beyond the lexeme is what comes behind its last
line, which may be the first character of the next one.
-/

namespace Highlight

theorem Piece.atLineEnd_iff {s : List Char} :
    atLineEnd s = true ↔ s = [] ∨ ['\n'] <+: s ∨ ['\r', '\n'] <+: s := by
  rw [atLineEnd, Bool.or_eq_true, Bool.or_eq_true, List.isEmpty_iff, List.isPrefixOf_iff_prefix,
    List.isPrefixOf_iff_prefix, or_assoc]

namespace Token

variable {tabStop : Nat} {passed code after space : List Char} {tokens whole stripped : List Token}
  {token : Token}

/-- Whether a slice of white space is one that stripping leaves in front of the text behind it: a
line break, or a part of a line with something else than white space behind it on the line. -/
def Remains (slice behind : List Char) : Prop :=
  slice = ['\n'] ∨ slice = ['\r', '\n'] ∨
    slice ≠ [] ∧ '\n' ∉ slice ∧ behind ≠ [] ∧ ¬ ['\n'] <+: behind ∧ ¬ ['\r', '\n'] <+: behind

/-- Whether tokens are slices of white space between a text that was passed and one that comes after
it, in order and without overlap, with no newline between them. -/
inductive Slices (tabStop : Nat) (after : List Char) :
    (passed space : List Char) → List Token → Prop where
  | nil {passed gap : List Char} (hgap : '\n' ∉ gap) : Slices tabStop after passed gap []
  | cons {passed gap slice rest : List Char} {tokens : List Token} (hgap : '\n' ∉ gap)
      (hslice : Remains slice (rest ++ after))
      (more : Slices tabStop after (passed ++ (gap ++ slice)) rest tokens) :
      Slices tabStop after passed (gap ++ (slice ++ rest))
        (⟨.whitespace, slice, .counted tabStop (passed ++ gap)⟩ :: tokens)

/-- Whether the tokens of a text become others when white space is stripped, with a text in front
that was passed. -/
inductive Strips (tabStop : Nat) :
    (passed code : List Char) → (whole stripped : List Token) → Prop where
  | nil {passed : List Char} : Strips tabStop passed [] [] []
  | token {passed code : List Char} {token : Token} {whole stripped : List Token}
      (hkind : token.kind ≠ .whitespace)
      (more : Strips tabStop (passed ++ token.value) code whole stripped) :
      Strips tabStop passed (token.value ++ code) (token :: whole) (token :: stripped)
  | space {passed code : List Char} {token : Token} {slices whole stripped : List Token}
      (hkind : token.kind = .whitespace) (hslices : Slices tabStop code passed token.value slices)
      (more : Strips tabStop (passed ++ token.value) code whole stripped) :
      Strips tabStop passed (token.value ++ code) (token :: whole) (slices ++ stripped)

theorem Slices.kind_eq (h : Slices tabStop after passed space tokens) (hmem : token ∈ tokens) :
    token.kind = .whitespace := by
  induction h with
  | nil => cases hmem
  | cons _ _ _ ih =>
      rcases List.mem_cons.1 hmem with rfl | hmore
      · rfl
      · exact ih hmore

theorem Slices.count_newline (h : Slices tabStop after passed space tokens) :
    (tokens.flatMap value).count '\n' = space.count '\n' := by
  induction h with
  | nil hgap => exact (List.count_eq_zero.2 hgap).symm
  | cons hgap _ _ ih =>
      rw [List.flatMap_cons, List.count_append, ih, List.count_append, List.count_append,
        List.count_eq_zero.2 hgap, Nat.zero_add]

theorem Slices.exists_behind (h : Slices tabStop after passed space tokens)
    (hmem : token ∈ tokens) :
    ∃ front behind, space ++ after = front ++ (token.value ++ behind) ∧
      token.position = .counted tabStop (passed ++ front) ∧ Remains token.value behind := by
  induction h with
  | nil => cases hmem
  | @cons passed gap slice rest tokens _ hslice _ ih =>
      rcases List.mem_cons.1 hmem with rfl | hmore
      · exact ⟨gap, rest ++ after, by simp only [List.append_assoc], rfl, hslice⟩
      · obtain ⟨front, behind, htext, hposition, hremains⟩ := ih hmore
        refine ⟨gap ++ (slice ++ front), behind, ?_, ?_, hremains⟩
        · simp only [List.append_assoc, htext]
        · rw [hposition]
          simp only [List.append_assoc]

theorem Strips.filter_eq (h : Strips tabStop passed code whole stripped) :
    (stripped.filter fun token => token.kind ≠ .whitespace) =
      whole.filter fun token => token.kind ≠ .whitespace := by
  induction h with
  | nil => rfl
  | @token _ _ token _ _ hkind _ ih =>
      have hstays : decide (token.kind ≠ .whitespace) = true := decide_eq_true hkind
      rw [List.filter_cons, List.filter_cons, if_pos hstays, if_pos hstays, ih]
  | @space _ _ token slices _ _ hkind hslices _ ih =>
      have hgoes : ¬ decide (token.kind ≠ .whitespace) = true := by simpa using hkind
      have hnone : (slices.filter fun token => token.kind ≠ .whitespace) = [] :=
        List.filter_eq_nil_iff.2 fun slice hmem => by simpa using hslices.kind_eq hmem
      rw [List.filter_append, hnone, List.nil_append, List.filter_cons, if_neg hgoes, ih]

theorem Strips.count_newline (h : Strips tabStop passed code whole stripped) :
    ((stripped.filter fun token => token.kind = .whitespace).flatMap value).count '\n' =
      ((whole.filter fun token => token.kind = .whitespace).flatMap value).count '\n' := by
  induction h with
  | nil => rfl
  | @token _ _ token _ _ hkind _ ih =>
      have hgoes : ¬ decide (token.kind = .whitespace) = true := by simpa using hkind
      rw [List.filter_cons, List.filter_cons, if_neg hgoes, if_neg hgoes, ih]
  | @space _ _ token slices _ _ hkind hslices _ ih =>
      have hstays : decide (token.kind = .whitespace) = true := decide_eq_true hkind
      have hall : (slices.filter fun token => token.kind = .whitespace) = slices :=
        List.filter_eq_self.2 fun slice hmem => decide_eq_true (hslices.kind_eq hmem)
      rw [List.filter_append, hall, List.filter_cons, if_pos hstays, List.flatMap_append,
        List.flatMap_cons, List.count_append, List.count_append, hslices.count_newline, ih]

theorem Strips.exists_behind (h : Strips tabStop passed code whole stripped)
    (hmem : token ∈ stripped) (hkind : token.kind = .whitespace) :
    ∃ front behind, code = front ++ (token.value ++ behind) ∧
      token.position = .counted tabStop (passed ++ front) ∧ Remains token.value behind := by
  -- Whatever was first, a token behind it has its text in front.
  have further {text passed code : List Char}
      (h : ∃ front behind, code = front ++ (token.value ++ behind) ∧
        token.position = .counted tabStop (passed ++ text ++ front) ∧ Remains token.value behind) :
      ∃ front behind, text ++ code = front ++ (token.value ++ behind) ∧
        token.position = .counted tabStop (passed ++ front) ∧ Remains token.value behind := by
    obtain ⟨front, behind, htext, hposition, hremains⟩ := h
    refine ⟨text ++ front, behind, ?_, ?_, hremains⟩
    · rw [htext, List.append_assoc]
    · rw [hposition, List.append_assoc]
  induction h with
  | nil => cases hmem
  | token hother _ ih =>
      rcases List.mem_cons.1 hmem with rfl | hmore
      · exact absurd hkind hother
      · exact further (ih hmore)
  | space _ hslices _ ih =>
      rcases List.mem_append.1 hmem with hslice | hmore
      · exact hslices.exists_behind hslice
      · exact further (ih hmore)

theorem placed_append (tabStop : Nat) (passed : List Char) (pieces more : List Piece) :
    placed tabStop passed (pieces ++ more) = placed tabStop passed pieces ++
      placed tabStop (passed ++ pieces.flatMap fun piece => piece.lexeme.text) more := by
  induction pieces generalizing passed with
  | nil => simp [placed]
  | cons piece pieces ih =>
      rw [List.cons_append, placed, placed, ih, List.flatMap_cons, List.append_assoc]
      split <;> rfl

theorem slices_ofLine {line : List Char} (hline : '\n' ∉ line)
    (h : Slices tabStop after (passed ++ (line ++ ['\n'])) space tokens) :
    Slices tabStop after passed (line ++ '\n' :: space)
      (placed tabStop passed (Piece.ofLine line) ++ tokens) := by
  rw [Piece.ofLine]
  split
  · next hlast =>
      obtain ⟨gap, rfl⟩ : ∃ gap, line = gap ++ ['\r'] :=
        ⟨line.dropLast, (List.dropLast_append_getLast? _ hlast).symm⟩
      have hgap : '\n' ∉ gap := fun hmem => hline (List.mem_append_left _ hmem)
      have hbreak : Remains ['\r', '\n'] (space ++ after) := .inr (.inl rfl)
      have hslices := Slices.cons hgap hbreak
        (by simpa only [List.append_assoc, List.cons_append, List.nil_append] using h)
      simpa [placed] using hslices
  · have hbreak : Remains ['\n'] (space ++ after) := .inl rfl
    simpa [placed] using Slices.cons hline hbreak h

theorem slices_ofSpace (tabStop : Nat) (after passed space : List Char) :
    Slices tabStop after passed space (placed tabStop passed (Piece.ofSpace after space)) := by
  induction space using lines_induction generalizing passed with
  | last line hline =>
      rw [Piece.ofSpace_of_notMem hline, placed]
      split
      · next hkept =>
          rw [Bool.not_eq_true', Bool.or_eq_false_iff, List.isEmpty_eq_false_iff] at hkept
          obtain ⟨hne, hnot⟩ := hkept
          have hafter : ¬ (after = [] ∨ ['\n'] <+: after ∨ ['\r', '\n'] <+: after) :=
            fun h => Bool.eq_false_iff.1 hnot (Piece.atLineEnd_iff.2 h)
          rw [not_or, not_or] at hafter
          have hslice : Remains line ([] ++ after) := .inr (.inr ⟨hne, hline, hafter⟩)
          have hnone : Slices tabStop after (passed ++ ([] ++ line)) [] [] := .nil List.not_mem_nil
          simpa [placed] using Slices.cons List.not_mem_nil hslice hnone
      · exact .nil hline
  | more line space hline ih =>
      rw [Piece.ofSpace_append hline, placed_append, Piece.flatMap_text_ofLine]
      exact slices_ofLine hline (ih _)

theorem strips_ofLexemes (tabStop : Nat) (passed : List Char) (lexemes : List Lexeme) :
    Strips tabStop passed (lexemes.flatMap Lexeme.text)
      (placed tabStop passed (Piece.ofLexemes false (lexemes.flatMap Lexeme.text) lexemes))
      (placed tabStop passed (Piece.ofLexemes true (lexemes.flatMap Lexeme.text) lexemes)) := by
  induction lexemes generalizing passed with
  | nil => exact .nil
  | cons lexeme more ih =>
      have hwhole : placed tabStop passed
          (Piece.ofLexemes false ((lexeme :: more).flatMap Lexeme.text) (lexeme :: more)) =
            ⟨lexeme.kind, lexeme.text, .counted tabStop passed⟩ ::
              placed tabStop (passed ++ lexeme.text)
                (Piece.ofLexemes false (more.flatMap Lexeme.text) more) := by
        rw [Piece.ofLexemes_false, Piece.ofLexemes_false]
        rfl
      let token : Token := ⟨lexeme.kind, lexeme.text, .counted tabStop passed⟩
      rw [hwhole, Piece.ofLexemes, List.flatMap_cons, List.drop_left, placed_append]
      by_cases hkind : token.kind = .whitespace
      · rw [if_pos ⟨rfl, hkind⟩, Piece.flatMap_text_ofSpace]
        exact .space hkind (slices_ofSpace ..) (ih _)
      · rw [if_neg fun h => hkind h.2, List.flatMap_singleton]
        exact .token hkind (ih _)

end Token

/-- Stripping keeps the tokens that are no white space and their order, and it leaves slices of the
others, with all of their newlines, in order and without overlap. Such a slice has the position of
its first character, and it is a line break or a part of a line, with none, that neither a line
break nor the end of the range comes behind. -/
theorem Language.tokenizeRange_strips (language : Language) (text : List Char) (range : ByteRange)
    (tabSize : Nat) :
    let tabStop := max tabSize 1
    let code := range.slice text
    let whole := language.tokenizeRange text range { strip := false, tabSize }
    let stripped := language.tokenizeRange text range { strip := true, tabSize }
    Token.Strips tabStop [] code whole stripped ∧
      (stripped.filter fun token => token.kind ≠ .whitespace) =
        (whole.filter fun token => token.kind ≠ .whitespace) ∧
      ((stripped.filter fun token => token.kind = .whitespace).flatMap Token.value).count '\n' =
        ((whole.filter fun token => token.kind = .whitespace).flatMap Token.value).count '\n' ∧
      ∀ token ∈ stripped, token.kind = .whitespace →
        ∃ front behind, code = front ++ (token.value ++ behind) ∧
          token.position = .counted tabStop front ∧ Token.Remains token.value behind := by
  intro tabStop code whole stripped
  have hstrips : Token.Strips tabStop [] code whole stripped := by
    have h := Token.strips_ofLexemes tabStop [] (language.lexRange text range)
    rw [language.flatMap_text_lexRange] at h
    have hwhole : whole = _ := language.tokenizeRange_eq_placed text range _
    have hstripped : stripped = _ := language.tokenizeRange_eq_placed text range _
    rw [hwhole, hstripped]
    exact h
  exact ⟨hstrips, hstrips.filter_eq, hstrips.count_newline,
    fun token hmem hkind => hstrips.exists_behind hmem hkind⟩

end Highlight
