import Highlight.Proofs.LineLimits
import Highlight.Proofs.OpenStrings
import Highlight.Proofs.Readers

/-!
# Strings with embedded code in place

The frames of the open strings are the same in place as on the text: they hold no offsets. So an
operation on them in place gives the frames that the operation on the text gives, and the offset
behind the piece it takes is where the rest of the piece is left. What the search for literal text
needs on its way is that every string is quoted by one of the three quotes, and the frames of such
strings are put in place of each other only.
-/

namespace Highlight

variable {buffer : Buffer} {offset : Nat} {c : Char} {s : List Char}

theorem TemplateSyntax.openerStop?_eq (style : TemplateSyntax) (hs : buffer.At offset s) :
    style.openerStop? buffer offset = (style.opener? s).map buffer.offsetOf := by
  rw [openerStop?, hs.reads_eq (by decide), hs.reads_eq (by decide)]
  cases s with
  | nil => cases style.dollar <;> rfl
  | cons c s =>
      rw [opener?, opener]
      cases style.dollar with
      | true =>
          rw [if_pos rfl, if_pos rfl, if_pos rfl]
          by_cases hc : c = '$'
          · subst hc
            have htail := hs.tail (by decide)
            rw [if_neg (not_not.2 rfl), htail.reads_eq (by decide)]
            cases s with
            | nil => rfl
            | cons d s =>
                by_cases hd : d = '\x7b'
                · subst hd
                  exact congrArg some (htail.tail (by decide)).eq_offsetOf
                · rw [isPrefixOf?_cons_of_ne (Ne.symm hd)]
                  simp [hd]
          · rw [if_pos hc]
            simp [hc]
      | false =>
          by_cases hc : c = '\x7b'
          · subst hc
            have htail := hs.tail (by decide)
            rw [htail.reads_eq (by decide), htail.eq_offsetOf]
            by_cases hhead : s.head? = some '\x7b' <;> simp [hhead]
          · simp [hc]

namespace Frame

theorem readRun_eq {kind : Kind} {after : List Frame} {rest : List Char}
    (hs : buffer.At offset s) (hrest : rest <:+ s) :
    readRun kind after offset (buffer.offsetOf rest) =
      (run kind after s rest).map (Prod.map (Match.inPlace buffer) id) := by
  rw [readRun, run]
  simp only [hs.lt_offsetOf_iff hrest]
  split <;> rfl

theorem read_eq {frame : Frame} (hq : frame.style.Quoted) (hs : buffer.At offset s) :
    frame.read buffer offset = (frame.scan s).map (Prod.map (Match.inPlace buffer) id) := by
  cases frame with
  | text style =>
      rw [read, style.openerStop?_eq hs, scan]
      cases hopener : style.opener? s with
      | some rest => rfl
      | none =>
          dsimp only [Option.map_none]
          rw [style.textStop_eq hq hs]
          exact readRun_eq hs (style.text_suffix s)
  | field style depth => rfl
  | spec style =>
      rw [read, hs.reads_eq (by decide), hs.reads_eq (by decide), style.specStop_eq hq hs,
        readRun_eq hs (style.specRest_suffix s)]
      cases s with
      | nil => rfl
      | cons c s =>
          by_cases hopen : c = '\x7b'
          · subst hopen
            rw [(hs.tail (by decide)).eq_offsetOf]
            rfl
          · by_cases hclose : c = '\x7d'
            · subst hclose
              rw [(hs.tail (by decide)).eq_offsetOf]
              rfl
            · have hopen' : (c :: s).head? ≠ some '\x7b' := by simpa using hopen
              have hclose' : (c :: s).head? ≠ some '\x7d' := by simpa using hclose
              rw [if_neg (mt beq_iff_eq.1 hopen'), if_neg (mt beq_iff_eq.1 hclose'),
                scan_spec_of_ne hopen' hclose']

end Frame

namespace Nesting

variable {nesting : Nesting}

/-- In place a nesting settles as it does in front of the text. -/
theorem settleAt_eq (hq : Styled TemplateSyntax.Quoted nesting) (hs : buffer.At offset s) :
    nesting.settleAt buffer offset =
      (nesting.settle s).map (Option.map (Match.inPlace buffer)) id := by
  induction nesting with
  | nil => rfl
  | cons frame outer ih =>
      obtain ⟨hframe, houter⟩ := styled_cons.1 hq
      rw [settleAt, settle, Frame.read_eq hframe hs, ih houter]
      split
      · rfl
      · cases frame.scan s <;> rfl

theorem enterAt_eq {style : TemplateSyntax} (hq : style.Quoted) (hs : buffer.At offset s) :
    nesting.enterAt style buffer offset =
      (nesting.enter style s).map (Match.inPlace buffer) id := by
  rw [enterAt, enter, style.textStop_eq hq hs]
  rfl

/-- At the end of a text every string that is open ends. -/
theorem settle_nil (nesting : Nesting) : (nesting.settle []).1 = none := by
  induction nesting with
  | nil => rfl
  | cons frame outer ih =>
      rw [settle]
      split
      · rfl
      · have hscan : frame.scan [] = none := by
          cases frame with
          | text style => rfl
          | field style depth => rfl
          | spec style => rfl
        rw [hscan]
        exact ih

theorem exists_settleAt_nil (hq : Styled TemplateSyntax.Quoted nesting) (hs : buffer.At offset []) :
    ∃ nesting', nesting.settleAt buffer offset = (none, nesting') := by
  have hnone := settle_nil nesting
  rw [settleAt_eq hq hs]
  cases hsettle : nesting.settle [] with
  | mk found nesting' =>
      rw [hsettle] at hnone
      cases hnone
      exact ⟨nesting', rfl⟩

theorem crossesLineAt_eq (hs : buffer.At offset s) :
    crossesLineAt buffer offset = crossesLine s := by
  rw [crossesLineAt, crossesLine, hs.drop_bytes, (represents_has blanks).takeWhile,
    Bool.eq_iff_iff, List.contains_iff_mem, List.contains_iff_mem]
  exact mem_utf8_iff (by decide : '\n'.toNat < 128)

theorem delimiter_of_not_ascii {style : TemplateSyntax} {depth : Nat} {outer : Nesting}
    (hc : ¬ c.toNat < 128) (s : List Char) :
    delimiter (.field style depth :: outer) (c :: s) = (none, .field style depth :: outer) := by
  simp only [delimiter]
  split
  all_goals first
    | rfl
    | exact absurd (by decide) hc

theorem delimiterAt_of_not_ascii {style : TemplateSyntax} {depth : Nat} {outer : Nesting}
    (hc : buffer.current offset = '\x00' ∨ 128 ≤ (buffer.current offset).toNat) :
    delimiterAt buffer offset (.field style depth :: outer) =
      (none, .field style depth :: outer) := by
  simp only [delimiterAt]
  generalize buffer.current offset = d at hc
  split
  all_goals first
    | rfl
    | exact absurd hc (by decide)

theorem delimiterAt_eq (hs : buffer.At offset (c :: s)) :
    nesting.delimiterAt buffer offset =
      (nesting.delimiter (c :: s)).map (Option.map (Match.inPlace buffer)) id := by
  cases nesting with
  | nil => rfl
  | cons frame outer =>
      cases frame with
      | text style => rfl
      | spec style => rfl
      | field style depth =>
          by_cases hc : c.toNat < 128
          · simp only [delimiterAt, delimiter, hs.current_cons hc, crossesLineAt_eq hs,
              (hs.tail hc).eq_offsetOf]
            repeat' split
            all_goals rfl
          · have hhead : ∀ d ∈ (c :: s).head?, ¬ d.toNat < 128 := by
              rintro d hd
              cases hd
              exact hc
            rw [delimiter_of_not_ascii hc,
              delimiterAt_of_not_ascii (hs.current_of_not_ascii hhead)]
            rfl

end Nesting

end Highlight
