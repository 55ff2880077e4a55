import Highlight.Proofs.Tiling

/-!
# Positions are those of the text in front

A locator never reads a text twice. It knows one offset on the current line and the column there,
reads on from it when a token asks for its position, and moves the line only when it is told of a
token with a newline in it; of white space that was stripped it is never told at all. This module
shows that none of the laziness can be seen: every token has the position that counting from the
front of the range gives, where the lines are the newlines in front of the token and the columns
start anew behind the last of them.

The invariant is `Locator.Tracks`. Up to any point of the text the locator has the right line, and
the offset it knows splits what was passed so that no newline stands behind the split and the column
is the right one in front of it. Asking, telling and passing in silence each keep it. The last of
them only because what is stripped never holds a newline, which is a fact about pieces and not about
locators.

Saturation is the other half. The locator bounds its columns at every character, counting from the
front bounds them once at the end, and the two agree because no character moves a column back.
-/

namespace Highlight

/-- The last line of a text: what stands behind its last newline. -/
def lastLine (s : List Char) : List Char :=
  s.rtakeWhile (· != '\n')

theorem lastLine_append {t : List Char} (s : List Char) (h : '\n' ∉ t) :
    lastLine (s ++ t) = lastLine s ++ t := by
  have hall : ∀ c ∈ t.reverse, (c != '\n') = true := by
    intro c hc
    have hne : c ≠ '\n' := fun heq => h (heq ▸ List.mem_reverse.1 hc)
    simpa using hne
  rw [lastLine, List.rtakeWhile, List.reverse_append, List.takeWhile_append_of_pos hall,
    List.reverse_append, List.reverse_reverse]
  rfl

theorem lastLine_append_newline {t : List Char} (s : List Char) (h : '\n' ∉ t) :
    lastLine (s ++ '\n' :: t) = t := by
  have hnil : lastLine (s ++ ['\n']) = [] :=
    List.rtakeWhile_concat_neg _ _ _ (by decide)
  rw [List.append_cons, lastLine_append _ h, hnil, List.nil_append]

theorem exists_last_newline {s : List Char} (h : '\n' ∈ s) :
    ∃ lines line, s = lines ++ '\n' :: line ∧ '\n' ∉ line := by
  induction s with
  | nil => cases h
  | cons c s ih =>
      by_cases hs : '\n' ∈ s
      · obtain ⟨lines, line, rfl, hline⟩ := ih hs
        exact ⟨c :: lines, line, rfl, hline⟩
      · rcases List.mem_cons.1 h with rfl | hmem
        · exact ⟨[], s, rfl, hs⟩
        · exact absurd hmem hs

namespace Position

/-- The column behind a character of a line, with no bound: a tab goes to the next stop, anything
else takes one column. -/
def nextColumn (tabStop column : Nat) (c : Char) : Nat :=
  if c = '\t' then ((column - 1) / tabStop + 1) * tabStop + 1 else column + 1

/-- The column behind a part of a line, counted from a column on. -/
def columnBehind (tabStop column : Nat) (s : List Char) : Nat :=
  s.foldl (nextColumn tabStop) column

/-- The position behind a text that starts at line one and column one. -/
def counted (tabStop : Nat) (s : List Char) : Position where
  line := min (1 + s.count '\n') limit
  column := min (columnBehind tabStop 1 (lastLine s)) limit

theorem lt_tab {tabStop : Nat} (hpos : 0 < tabStop) (column : Nat) :
    column < ((column - 1) / tabStop + 1) * tabStop + 1 := by
  have h := Nat.lt_mul_div_succ (column - 1) hpos
  rw [Nat.mul_comm] at h
  omega

theorem columnAfter_min {tabStop : Nat} (hpos : 0 < tabStop) (column : Nat) (c : Char) :
    columnAfter tabStop (min column limit) c = min (nextColumn tabStop column c) limit := by
  rw [columnAfter, nextColumn]
  rcases Nat.le_total column limit with hle | hge
  · rw [Nat.min_eq_left hle]
    split <;> rfl
  · -- At the bound both sides stay there, since either way the column goes ahead.
    rw [Nat.min_eq_right hge]
    have htab := lt_tab hpos column
    have hbound := lt_tab hpos limit
    split <;> omega

theorem foldl_columnAfter {tabStop : Nat} (hpos : 0 < tabStop) (column : Nat) (s : List Char) :
    s.foldl (columnAfter tabStop) (min column limit) =
      min (columnBehind tabStop column s) limit := by
  induction s generalizing column with
  | nil => rfl
  | cons c s ih =>
      rw [List.foldl_cons, columnAfter_min hpos, ih]
      rfl

theorem columnBehind_append (tabStop column : Nat) (s t : List Char) :
    columnBehind tabStop column (s ++ t) =
      columnBehind tabStop (columnBehind tabStop column s) t :=
  List.foldl_append

end Position

theorem startingBetween_append_left (start stop : Nat) (u s : List Char) :
    startingBetween (byteSize u + start) (byteSize u + stop) (u ++ s) =
      startingBetween start stop s := by
  induction u with
  | nil => rw [byteSize_nil, Nat.zero_add, Nat.zero_add, List.nil_append]
  | cons c u ih =>
      have hc := c.utf8Size_pos
      rw [byteSize_cons, List.cons_append, startingBetween]
      · rw [show c.utf8Size + byteSize u + start - c.utf8Size = byteSize u + start by omega,
          show c.utf8Size + byteSize u + stop - c.utf8Size = byteSize u + stop by omega, ih]
      · omega
      · omega

theorem startingBetween_zero (v s : List Char) :
    startingBetween 0 (byteSize v) (v ++ s) = v := by
  induction v with
  | nil => cases s <;> rfl
  | cons c v ih =>
      have hc := c.utf8Size_pos
      rw [byteSize_cons, List.cons_append, startingBetween]
      · rw [Nat.add_sub_cancel_left, ih]
      · omega

theorem startingBetween_append (u v s : List Char) :
    startingBetween (byteSize u) (byteSize (u ++ v)) (u ++ (v ++ s)) = v := by
  have h := startingBetween_append_left 0 (byteSize v) u (v ++ s)
  rw [Nat.add_zero, startingBetween_zero] at h
  rw [byteSize_append, h]

theorem newlineOffsets_append (offset : Nat) (s t : List Char) :
    newlineOffsets offset (s ++ t) =
      newlineOffsets offset s ++ newlineOffsets (offset + byteSize s) t := by
  induction s generalizing offset with
  | nil => rfl
  | cons c s ih =>
      rw [List.cons_append, newlineOffsets, newlineOffsets, ih, byteSize_cons, Nat.add_assoc]
      split <;> rfl

theorem newlineOffsets_bounds {offset n : Nat} {s : List Char}
    (h : n ∈ newlineOffsets offset s) : offset ≤ n ∧ n < offset + byteSize s := by
  induction s generalizing offset with
  | nil => cases h
  | cons c s ih =>
      have hc := c.utf8Size_pos
      rw [newlineOffsets] at h
      rw [byteSize_cons]
      split at h
      · rcases List.mem_cons.1 h with rfl | hmem
        · omega
        · have := ih hmem
          omega
      · have := ih h
        omega

theorem length_newlineOffsets (offset : Nat) (s : List Char) :
    (newlineOffsets offset s).length = s.count '\n' := by
  induction s generalizing offset with
  | nil => rfl
  | cons c s ih =>
      rw [newlineOffsets]
      split
      · next hc => rw [hc, List.length_cons, ih, List.count_cons_self]
      · next hc => rw [ih, List.count_cons_of_ne hc]

theorem newlineOffsets_eq_nil {s : List Char} (offset : Nat) (h : '\n' ∉ s) :
    newlineOffsets offset s = [] := by
  rw [← List.length_eq_zero_iff, length_newlineOffsets, List.count_eq_zero.2 h]

theorem filter_newlineOffsets (u v s : List Char) :
    (newlineOffsets 0 (u ++ (v ++ s))).filter
        (fun n => byteSize u ≤ n && n < byteSize u + byteSize v) =
      newlineOffsets (byteSize u) v := by
  have hout : ∀ offsets : List Nat,
      (∀ n ∈ offsets, n < byteSize u ∨ byteSize u + byteSize v ≤ n) →
      offsets.filter (fun n => byteSize u ≤ n && n < byteSize u + byteSize v) = [] := by
    intro offsets hoffsets
    refine List.filter_eq_nil_iff.2 fun n hn => ?_
    have := hoffsets n hn
    simp only [Bool.and_eq_true, decide_eq_true_eq]
    omega
  have hfront := hout (newlineOffsets 0 u) fun n hn => by
    have := newlineOffsets_bounds hn
    omega
  have hback := hout (newlineOffsets (byteSize u + byteSize v) s) fun n hn => by
    have := newlineOffsets_bounds hn
    omega
  have hmid : (newlineOffsets (byteSize u) v).filter
      (fun n => byteSize u ≤ n && n < byteSize u + byteSize v) = newlineOffsets (byteSize u) v := by
    refine List.filter_eq_self.2 fun n hn => ?_
    have := newlineOffsets_bounds hn
    simp only [Bool.and_eq_true, decide_eq_true_eq]
    omega
  rw [newlineOffsets_append, newlineOffsets_append, List.filter_append, List.filter_append,
    Nat.zero_add, hfront, hmid, hback, List.nil_append, List.append_nil]

/-! ## What a locator knows

The known offset splits the part of the text that was passed, and `Tracks` has to say where. A
question moves the split to the end of what was passed; a token with a newline in it, of which the
locator is told, moves it behind the newline; and silence leaves it where it is. -/

open Position in
/-- A locator is right about a text that was passed from line one and column one on, with a text in
front of that and one still to come. The offset it knows is on the last line, and the column is that
of the offset. -/
structure Locator.Tracks (locator : Locator) (tabStop : Nat) (front passed rest : List Char) :
    Prop where
  text : locator.text = front ++ (passed ++ rest)
  tabSize : locator.tabSize = tabStop
  line : locator.line = min (1 + passed.count '\n') limit
  known : ∃ seen unseen, passed = seen ++ unseen ∧ '\n' ∉ unseen ∧
    locator.known = byteSize (front ++ seen) ∧
    locator.column = min (columnBehind tabStop 1 (lastLine seen)) limit

namespace Locator

open Position

variable {locator : Locator} {tabStop : Nat} {front passed rest t : List Char}

theorem tracks_start (front rest : List Char) (wish : Nat) :
    Tracks (start (front ++ rest) (byteSize front) wish) (tabStops wish) front [] rest where
  text := rfl
  tabSize := rfl
  line := rfl
  known := ⟨[], [], rfl, List.not_mem_nil, by rw [List.append_nil]; rfl, rfl⟩

/-- Asked for the offset where it stands, a locator gives the position of the text that was
passed. -/
theorem Tracks.position_eq (hpos : 0 < tabStop) (h : locator.Tracks tabStop front passed rest) :
    (locator.position (byteSize (front ++ passed))).1 = counted tabStop passed ∧
      (locator.position (byteSize (front ++ passed))).2.Tracks tabStop front passed rest := by
  obtain ⟨seen, unseen, rfl, hline, hknown, hcolumn⟩ := h.known
  have hle : byteSize (front ++ (seen ++ unseen)) ≤ byteSize locator.text := by
    rw [h.text]
    simp only [byteSize_append]
    omega
  have hpassed :
      startingBetween locator.known (byteSize (front ++ (seen ++ unseen))) locator.text = unseen := by
    rw [h.text, hknown, ← List.append_assoc front seen unseen,
      show front ++ (seen ++ unseen ++ rest) = front ++ seen ++ (unseen ++ rest) by
        simp only [List.append_assoc]]
    exact startingBetween_append ..
  have hfold : unseen.foldl (columnAfter locator.tabSize) locator.column =
      min (columnBehind tabStop 1 (lastLine (seen ++ unseen))) limit := by
    rw [h.tabSize, hcolumn, foldl_columnAfter hpos, lastLine_append seen hline,
      columnBehind_append]
  have hmax : max locator.known (byteSize (front ++ (seen ++ unseen))) =
      byteSize (front ++ (seen ++ unseen)) := by
    rw [hknown]
    simp only [byteSize_append]
    omega
  rw [Locator.position, if_pos hle, hpassed, hfold]
  refine ⟨by rw [h.line]; rfl, h.text, h.tabSize, h.line, ?_⟩
  exact ⟨seen ++ unseen, [], (List.append_nil _).symm, List.not_mem_nil, hmax, rfl⟩

theorem Tracks.skip (h : locator.Tracks tabStop front passed (t ++ rest)) (ht : '\n' ∉ t) :
    locator.Tracks tabStop front (passed ++ t) rest := by
  obtain ⟨seen, unseen, rfl, hline, hknown, hcolumn⟩ := h.known
  refine ⟨by rw [h.text, List.append_assoc _ t], h.tabSize, ?_, ?_⟩
  · rw [h.line, List.count_append, List.count_append, List.count_append,
      List.count_eq_zero.2 ht, Nat.add_zero]
  · refine ⟨seen, unseen ++ t, List.append_assoc .., ?_, hknown, hcolumn⟩
    rw [List.mem_append]
    exact not_or.2 ⟨hline, ht⟩

/-- Told of the text behind the offset where it stands, a locator has passed it. -/
theorem Tracks.pass (h : locator.Tracks tabStop front passed (t ++ rest)) :
    (locator.pass (byteSize (front ++ passed))
      (byteSize (front ++ passed) + byteSize t)).Tracks tabStop front (passed ++ t) rest := by
  have hle : byteSize (front ++ passed) + byteSize t ≤ byteSize locator.text := by
    rw [h.text]
    simp only [byteSize_append]
    omega
  have hnewlines : (newlineOffsets 0 locator.text).filter
      (fun n => byteSize (front ++ passed) ≤ n &&
        n < byteSize (front ++ passed) + byteSize t) =
      newlineOffsets (byteSize (front ++ passed)) t := by
    rw [h.text, ← List.append_assoc]
    exact filter_newlineOffsets ..
  rw [Locator.pass, if_pos hle, hnewlines]
  by_cases ht : '\n' ∈ t
  · obtain ⟨lines, line, rfl, hline⟩ := exists_last_newline ht
    -- The last newline is where the offset that is known moves to.
    have hlast : (newlineOffsets (byteSize (front ++ passed)) (lines ++ '\n' :: line)).getLast? =
        some (byteSize (front ++ passed) + byteSize lines) := by
      rw [newlineOffsets_append, newlineOffsets, if_pos rfl, newlineOffsets_eq_nil _ hline]
      exact List.getLast?_concat
    rw [hlast, length_newlineOffsets]
    refine ⟨?_, h.tabSize, ?_, passed ++ (lines ++ ['\n']), line, ?_, hline, ?_, ?_⟩
    · show locator.text = _
      rw [h.text, List.append_assoc passed]
    · have hcount : (passed ++ (lines ++ '\n' :: line)).count '\n' =
          passed.count '\n' + (lines ++ '\n' :: line).count '\n' := List.count_append
      show min (locator.line + _) limit = _
      rw [h.line, hcount]
      omega
    · rw [List.append_assoc, List.append_assoc]
      rfl
    · simp only [byteSize_append, byteSize_cons, byteSize_nil]
      rw [show '\n'.utf8Size = 1 from rfl]
      omega
    · rw [← List.append_assoc, lastLine_append_newline _ List.not_mem_nil]
      rfl
  · rw [newlineOffsets_eq_nil _ ht]
    exact h.skip ht

end Locator

namespace Piece

theorem newline_notMem_of_mem_ofLine {line : List Char} {piece : Piece} (hline : '\n' ∉ line)
    (h : piece ∈ ofLine line) (hk : piece.kept = false) : '\n' ∉ piece.lexeme.text := by
  rw [ofLine] at h
  split at h
  · rcases List.mem_cons.1 h with rfl | h
    · exact fun hmem => hline (List.dropLast_subset line hmem)
    · rw [List.mem_singleton.1 h] at hk
      cases hk
  · rcases List.mem_cons.1 h with rfl | h
    · exact hline
    · rw [List.mem_singleton.1 h] at hk
      cases hk

theorem newline_notMem_of_mem_ofSpace {after space : List Char} {piece : Piece}
    (h : piece ∈ ofSpace after space) (hk : piece.kept = false) : '\n' ∉ piece.lexeme.text := by
  induction space using lines_induction with
  | last line hline =>
      rw [ofSpace_of_notMem hline] at h
      rw [List.mem_singleton.1 h]
      exact hline
  | more line space hline ih =>
      rw [ofSpace_append hline] at h
      rcases List.mem_append.1 h with h | h
      · exact newline_notMem_of_mem_ofLine hline h hk
      · exact ih h

theorem newline_notMem_of_dropped {strip : Bool} {text : List Char} {lexemes : List Lexeme}
    {piece : Piece} (h : piece ∈ ofLexemes strip text lexemes) (hk : piece.kept = false) :
    '\n' ∉ piece.lexeme.text := by
  induction lexemes generalizing text with
  | nil => cases h
  | cons lexeme more ih =>
      rw [ofLexemes] at h
      rcases List.mem_append.1 h with h | h
      · split at h
        · exact newline_notMem_of_mem_ofSpace h hk
        · rw [List.mem_singleton.1 h] at hk
          cases hk
      · exact ih h

end Piece

namespace Token

/-- The pieces that stay, each with the position behind everything in front of it. -/
def placed (tabStop : Nat) : (passed : List Char) → List Piece → List Token
  | _, [] => []
  | passed, piece :: more =>
    let tokens := placed tabStop (passed ++ piece.lexeme.text) more
    if piece.kept then
      ⟨piece.lexeme.kind, piece.lexeme.text, .counted tabStop passed⟩ :: tokens
    else tokens

/-- The lazy positions are the counted ones. -/
theorem locate_eq_placed {tabStop : Nat} (hpos : 0 < tabStop) {pieces : List Piece}
    (hdropped : ∀ piece ∈ pieces, piece.kept = false → '\n' ∉ piece.lexeme.text)
    {locator : Locator} {front passed rest : List Char}
    (h : locator.Tracks tabStop front passed
      (pieces.flatMap (fun piece => piece.lexeme.text) ++ rest)) :
    locate locator (byteSize (front ++ passed)) pieces = placed tabStop passed pieces := by
  induction pieces generalizing locator passed with
  | nil => rfl
  | cons piece more ih =>
      have hmore : ∀ x ∈ more, x.kept = false → '\n' ∉ x.lexeme.text :=
        fun x hx => hdropped x (List.mem_cons_of_mem _ hx)
      have hstop : byteSize (front ++ passed) + piece.lexeme.size =
          byteSize (front ++ (passed ++ piece.lexeme.text)) := by
        rw [← List.append_assoc, byteSize_append (front ++ passed)]
        rfl
      rw [List.flatMap_cons, List.append_assoc] at h
      rw [locate, placed]
      by_cases hk : piece.kept = true
      · obtain ⟨hposition, htracks⟩ := h.position_eq hpos
        generalize locator.position (byteSize (front ++ passed)) = answer at hposition htracks ⊢
        obtain ⟨position, next⟩ := answer
        obtain rfl : position = .counted tabStop passed := hposition
        rw [if_pos hk, if_pos hk]
        show _ :: locate (next.pass _ _) _ more = _
        refine congrArg (List.cons _) ?_
        have hpass := htracks.pass
        rw [show byteSize piece.lexeme.text = piece.lexeme.size from rfl, hstop] at hpass
        rw [hstop]
        exact ih hmore hpass
      · have hskip := h.skip (hdropped piece List.mem_cons_self (Bool.not_eq_true _ ▸ hk))
        rw [if_neg hk, if_neg hk, hstop]
        exact ih hmore hskip

/-- Tokens depend on the text from their start on, and on nothing in front of it. -/
theorem ofLexemesFrom_eq_placed (config : TokenConfig) (front : List Char)
    (lexemes : List Lexeme) :
    ofLexemesFrom config (front ++ lexemes.flatMap Lexeme.text) (byteSize front) lexemes =
      placed (Position.tabStops config.tabSize) []
        (Piece.ofLexemes config.strip (lexemes.flatMap Lexeme.text) lexemes) := by
  have hpos : 0 < Position.tabStops config.tabSize := Nat.le_max_right ..
  have htracks : (Locator.start (front ++ lexemes.flatMap Lexeme.text) (byteSize front)
      config.tabSize).Tracks (Position.tabStops config.tabSize) front []
      ((Piece.ofLexemes config.strip (lexemes.flatMap Lexeme.text) lexemes).flatMap
        (fun piece => piece.lexeme.text) ++ []) := by
    rw [Piece.flatMap_text_ofLexemes, List.append_nil]
    exact Locator.tracks_start ..
  have hplaced := locate_eq_placed hpos (fun _ hp => Piece.newline_notMem_of_dropped hp) htracks
  rw [List.append_nil] at hplaced
  rw [ofLexemesFrom, dropBytes_byteSize_append]
  exact hplaced

theorem exists_of_mem_placed {tabStop : Nat} {passed : List Char} {pieces : List Piece}
    {token : Token} (h : token ∈ placed tabStop passed pieces) :
    ∃ front back, pieces.flatMap (fun piece => piece.lexeme.text) = front ++ (token.value ++ back) ∧
      token.position = .counted tabStop (passed ++ front) := by
  induction pieces generalizing passed with
  | nil => cases h
  | cons piece more ih =>
      -- Whatever the first piece is, a token behind it has its text in front.
      have hmore : token ∈ placed tabStop (passed ++ piece.lexeme.text) more → ∃ front back,
          (piece :: more).flatMap (fun piece => piece.lexeme.text) = front ++ (token.value ++ back) ∧
            token.position = .counted tabStop (passed ++ front) := by
        intro h
        obtain ⟨front, back, htext, hposition⟩ := ih h
        refine ⟨piece.lexeme.text ++ front, back, ?_, ?_⟩
        · rw [List.flatMap_cons, htext, List.append_assoc]
        · rw [hposition, List.append_assoc]
      rw [placed] at h
      split at h
      · rcases List.mem_cons.1 h with rfl | h
        · exact ⟨[], _, List.flatMap_cons, by rw [List.append_nil]⟩
        · exact hmore h
      · exact hmore h

end Token

theorem Language.tokenizeRange_eq_placed (language : Language) (text : List Char)
    (range : ByteRange) (config : TokenConfig) :
    language.tokenizeRange text range config =
      Token.placed (Position.tabStops config.tabSize) []
        (Piece.ofLexemes config.strip (range.slice text) (language.lexRange text range)) := by
  have htile := language.flatMap_text_lexRange text range
  have hplaced := Token.ofLexemesFrom_eq_placed config (takeBytes range.start (range.upTo text))
    (language.lexRange text range)
  rw [htile, ByteRange.before_append_slice] at hplaced
  exact (language.tokenizeRange_eq_ofLexemes text range config).trans hplaced

/-- The tokens of a range are its lexemes, and each has the position of its first character: the
line is one more than the newlines in front of it in the range, the column is counted from the last
of them or from where the range starts, and neither goes beyond the bound. What is stripped has no
token, but the tokens behind it are where they would be with it. -/
theorem Language.tokenizeRange_positions (language : Language) (text : List Char)
    (range : ByteRange) (config : TokenConfig) :
    let lexemes := language.lexRange text range
    let code := range.slice text
    let pieces := Piece.ofLexemes config.strip code lexemes
    let tabStop := max config.tabSize 1
    let tokens := language.tokenizeRange text range config
    (language.tokenizeRange text range { config with strip := false }).map Token.lexeme = lexemes ∧
      pieces.flatMap (fun piece => piece.lexeme.text) = code ∧
      tokens = Token.placed tabStop [] pieces ∧
      ∀ token ∈ tokens, ∃ front back, code = front ++ (token.value ++ back) ∧
        token.position.line = min (1 + front.count '\n') (2 ^ 32 - 1) ∧
        token.position.column =
          min (Position.columnBehind tabStop 1 (lastLine front)) (2 ^ 32 - 1) := by
  intro lexemes code pieces tabStop tokens
  have hplaced : tokens = Token.placed tabStop [] pieces :=
    language.tokenizeRange_eq_placed text range config
  have hpieces : pieces.flatMap (fun piece => piece.lexeme.text) = code := by
    rw [Piece.flatMap_text_ofLexemes]
    exact language.flatMap_text_lexRange text range
  refine ⟨language.map_lexeme_tokenizeRange rfl text range, hpieces, hplaced, ?_⟩
  intro token htoken
  rw [hplaced] at htoken
  obtain ⟨front, back, htext, hposition⟩ := Token.exists_of_mem_placed htoken
  rw [List.nil_append] at hposition
  exact ⟨front, back, hpieces.symm.trans htext, congrArg Position.line hposition,
    congrArg Position.column hposition⟩

end Highlight
