import Highlight.Language
import Highlight.Proofs.Boundary
import Highlight.Proofs.MarkupScanners

/-!
# Ranges are read in place

A range is read in the buffer that ends with it, at the offsets where it stands there, and what
comes out is what the lexer of the language has for the text of the range alone. Each scanner
follows its lexer, so the kinds and sizes are those of the lexemes; the lexemes tile what is left,
so the sizes cut them out of the buffer again.

Where white space is stripped the buffer is cut in two ways. The stretches are found by offset, a
newline at a time, with looks at the byte in front of it and at the bytes behind the last; the
pieces are cut from the texts of the lexemes. The pieces tile the buffer, so each has an offset, and
the stretches are those of them that stay.
-/

namespace Highlight

variable {buffer : Buffer} {start : Nat} {s : List Char}

/-- Induction on the lines of a text: each but the last has a newline behind it. -/
@[elab_as_elim]
theorem lines_induction {motive : List Char → Prop} (last : ∀ line, '\n' ∉ line → motive line)
    (more : ∀ line rest, '\n' ∉ line → motive rest → motive (line ++ '\n' :: rest))
    (s : List Char) : motive s := by
  by_cases h : '\n' ∈ s
  · obtain ⟨line, rest, hsplit, hline⟩ := List.eq_append_cons_of_mem h
    rw [hsplit]
    exact more line rest hline (lines_induction last more rest)
  · exact last s h
termination_by s.length
decreasing_by
  rw [hsplit, List.length_append, List.length_cons]
  omega

namespace Piece

theorem flatMap_text_ofLine (line : List Char) :
    (ofLine line).flatMap (fun piece => piece.lexeme.text) = line ++ ['\n'] := by
  rw [ofLine]
  split
  · next hlast =>
      have happ := List.dropLast_append_getLast? '\r' hlast
      conv => rhs; rw [← happ]
      simp
  · simp

/-- White space on one line is one piece. -/
theorem ofSpace_of_notMem {space : List Char} (h : '\n' ∉ space) (after : List Char) :
    ofSpace after space = [⟨⟨.whitespace, space⟩, !(space.isEmpty || atLineEnd after)⟩] := by
  have hnil : space.dropWhile (· != '\n') = [] :=
    List.dropWhile_eq_nil_iff.2 fun c hc => by simpa using ne_of_mem_of_not_mem hc h
  rw [ofSpace]
  split
  · rfl
  · next heq =>
      rw [hnil] at heq
      cases heq

/-- A line of white space, and what is behind it. -/
theorem ofSpace_append {line : List Char} (h : '\n' ∉ line) (after space : List Char) :
    ofSpace after (line ++ '\n' :: space) = ofLine line ++ ofSpace after space := by
  have hline : ∀ c ∈ line, (c != '\n') = true := fun c hc => by
    simpa using ne_of_mem_of_not_mem hc h
  have hdrop : (line ++ '\n' :: space).dropWhile (· != '\n') = '\n' :: space := by
    rw [List.dropWhile_append_of_pos hline]
    rfl
  have htake : (line ++ '\n' :: space).takeWhile (· != '\n') = line := by
    rw [List.takeWhile_append_of_pos hline]
    exact List.append_nil line
  rw [ofSpace]
  split
  · next heq =>
      rw [hdrop] at heq
      cases heq
  · next heq =>
      rw [hdrop] at heq
      cases heq
      rw [htake]

theorem flatMap_text_ofSpace (after space : List Char) :
    (ofSpace after space).flatMap (fun piece => piece.lexeme.text) = space := by
  induction space using lines_induction with
  | last line hline =>
      rw [ofSpace_of_notMem hline, List.flatMap_singleton]
  | more line space hline ih =>
      rw [ofSpace_append hline, List.flatMap_append, flatMap_text_ofLine, ih, List.append_assoc]
      rfl

theorem flatMap_text_ofLexemes (strip : Bool) (text : List Char) (lexemes : List Lexeme) :
    (ofLexemes strip text lexemes).flatMap (fun piece => piece.lexeme.text) =
      lexemes.flatMap Lexeme.text := by
  induction lexemes generalizing text with
  | nil => rfl
  | cons lexeme more ih =>
      rw [ofLexemes, List.flatMap_append, ih, List.flatMap_cons]
      split
      · rw [flatMap_text_ofSpace]
      · rw [List.flatMap_singleton]

end Piece

namespace Language

theorem flatMap_text_lex (language : Language) (text : List Char) :
    (language.lex text).flatMap Lexeme.text = text := by
  cases language <;> exact Lexer.flatMap_text_run ..

theorem text_ne_nil_of_mem_lex {language : Language} {text : List Char} {lexeme : Lexeme}
    (h : lexeme ∈ language.lex text) : lexeme.text ≠ [] := by
  cases language <;> exact Lexer.text_ne_nil_of_mem_run h

/-- What a scanner tells of a buffer from an offset on is told by the text that is left there. -/
theorem scan_eq (language : Language) (hs : buffer.At start s) :
    language.scan buffer start =
      (language.lex s).map fun lexeme => (lexeme.kind, lexeme.size) := by
  cases language with
  | python => exact Python.simulates.lex_eq hs
  | javaScript => exact JavaScript.simulates.lex_eq hs
  | json => exact Json.simulates.lex_eq hs
  | html => exact Html.simulates.lex_eq hs
  | markdown => exact Markdown.simulates.lex_eq hs
  | rust => exact Rust.simulates.lex_eq hs
  | go => exact Go.simulates.lex_eq hs

end Language

theorem Lexeme.size_pos {lexeme : Lexeme} (h : lexeme.text ≠ []) : 0 < lexeme.size := by
  obtain ⟨c, s, hcs⟩ := List.exists_cons_of_ne_nil h
  rw [Lexeme.size, hcs, byteSize_cons]
  exact Nat.add_pos_left c.utf8Size_pos _

theorem ByteRange.at_clamp (range : ByteRange) (text : List Char) :
    (Buffer.ofText (range.upTo text)).At (range.clamp text).start (range.slice text) :=
  ⟨takeBytes range.start (range.upTo text), (takeBytes_append_dropBytes ..).symm, rfl⟩

namespace Buffer.At

/-- Lexemes that tile what is left are cut out of the buffer by their sizes. -/
theorem lexemes_eq {lexemes : List Lexeme} (hs : buffer.At start (lexemes.flatMap Lexeme.text))
    (hne : ∀ lexeme ∈ lexemes, lexeme.text ≠ []) :
    buffer.lexemes start (lexemes.map fun lexeme => (lexeme.kind, lexeme.size)) = lexemes := by
  induction lexemes generalizing start with
  | nil => rfl
  | cons lexeme more ih =>
      obtain ⟨htext, hmore⟩ := List.forall_mem_cons.1 hne
      rw [List.flatMap_cons] at hs
      have hbehind := hs.append
      have hslice := hs.slice_eq (List.suffix_append lexeme.text _)
      rw [← hbehind.eq_offsetOf, before_append] at hslice
      have hpos : start < start + lexeme.size :=
        Nat.lt_add_of_pos_right (Lexeme.size_pos htext)
      have hstop : min (start + lexeme.size) buffer.length = start + lexeme.size :=
        Nat.min_eq_left hbehind.le_length
      simp only [List.map_cons, lexemes, hstop, if_pos hpos]
      exact congrArg₂ (Lexeme.mk lexeme.kind · :: ·) hslice (ih hbehind hmore)

theorem atLineEnd_eq (hs : buffer.At start s) : buffer.atLineEnd start = Piece.atLineEnd s := by
  have hend : decide (buffer.length ≤ start) = s.isEmpty := by
    rw [Bool.eq_iff_iff, decide_eq_true_iff, hs.length_le_iff, List.isEmpty_iff]
  have hline : buffer.reads start '\n' = ['\n'].isPrefixOf s := by
    rw [hs.reads_eq (by decide)]
    cases s with
    | nil => rfl
    | cons c s => simp [List.isPrefixOf, eq_comm]
  rw [Buffer.atLineEnd, Piece.atLineEnd, hend, hline, hs.startsWith_eq]

end Buffer.At

namespace Stretch

/-- The stretches of the pieces that stay, of those that tile a buffer from an offset on. -/
def kept (start : Nat) : List Piece → List Stretch
  | [] => []
  | piece :: more =>
    let stop := start + piece.lexeme.size
    if piece.kept then ⟨piece.lexeme.kind, start, stop⟩ :: kept stop more else kept stop more

theorem kept_append (start : Nat) (pieces more : List Piece) :
    kept start (pieces ++ more) = kept start pieces ++
      kept (start + byteSize (pieces.flatMap fun piece => piece.lexeme.text)) more := by
  induction pieces generalizing start with
  | nil => rfl
  | cons piece pieces ih =>
      have hstop : start + piece.lexeme.size + byteSize (pieces.flatMap fun p => p.lexeme.text) =
          start + byteSize ((piece :: pieces).flatMap fun p => p.lexeme.text) := by
        rw [List.flatMap_cons, byteSize_append, ← Nat.add_assoc]
        rfl
      rw [List.cons_append, kept, kept, ih, hstop]
      split <;> rfl

/-- The pieces of a line break: the rest of its line is dropped. -/
theorem kept_ofLine (start : Nat) (line : List Char) :
    kept start (Piece.ofLine line) =
      let newline := start + byteSize line
      let front := if line.getLast? = some '\r' then newline - 1 else newline
      [⟨.whitespace, front, newline + 1⟩] := by
  rw [Piece.ofLine]
  split
  · next hlast =>
      have hline := List.dropLast_append_getLast? '\r' hlast
      have hsize := congrArg byteSize hline
      rw [byteSize_append] at hsize
      change byteSize line.dropLast + 1 = byteSize line at hsize
      simp only [kept, Lexeme.size, ← hsize, Bool.false_eq_true, if_false, if_true]
      rfl
  · rfl

theorem find?_newline_eq_none {line rest : List Char} (hs : buffer.At start (line ++ rest))
    (hline : '\n' ∉ line) : buffer.find? (· == 0x0A) start (buffer.offsetOf rest) = none := by
  have hnone : ∀ c ∈ line, (c == '\n') = false := fun c hc =>
    beq_false_of_ne (ne_of_mem_of_not_mem hc hline)
  have hsearch : (utf8 line).findIdx? (· == 0x0A) = none :=
    (represents_beq (by decide : '\n'.toNat < 128)).findIdx?_eq_none hnone
  rw [hs.find?_eq, hsearch, Option.map_none]

theorem find?_newline {line more rest : List Char}
    (hs : buffer.At start ((line ++ '\n' :: more) ++ rest)) (hline : '\n' ∉ line) :
    buffer.find? (· == 0x0A) start (buffer.offsetOf rest) = some (start + byteSize line) := by
  have hnone : ∀ c ∈ line, (c == '\n') = false := fun c hc =>
    beq_false_of_ne (ne_of_mem_of_not_mem hc hline)
  have hsearch : (utf8 (line ++ '\n' :: more)).findIdx? (· == 0x0A) = some (byteSize line) :=
    (represents_beq (by decide : '\n'.toNat < 128)).findIdx?_append_cons hnone (by decide) more
  rw [hs.find?_eq, hsearch, Option.map_some]

/-- A return is looked for in front of a newline, if that is not the first thing. -/
theorem reads_return_iff {line rest : List Char} (hs : buffer.At start (line ++ rest)) :
    (start < start + byteSize line ∧ buffer.reads (start + byteSize line - 1) '\r' = true) ↔
      line.getLast? = some '\r' := by
  cases line with
  | nil => exact iff_of_false (fun h => absurd h.1 (Nat.lt_irrefl start)) (by simp)
  | cons c line =>
      have hlt : start < start + byteSize (c :: line) := by
        have hpos := c.utf8Size_pos
        rw [byteSize_cons]
        omega
      rw [hs.reads_before (List.cons_ne_nil c line) (by decide), beq_iff_eq]
      exact and_iff_right hlt

theorem ofSpace_eq {after space : List Char} (hs : buffer.At start (space ++ after))
    (hne : space ≠ []) :
    ofSpace buffer start (buffer.offsetOf after) = kept start (Piece.ofSpace after space) := by
  induction space using lines_induction generalizing start with
  | last line hline =>
      have hfind := find?_newline_eq_none hs hline
      have hafter := hs.of_suffix (List.suffix_append line after)
      have hempty : line.isEmpty = false := List.isEmpty_eq_false_iff.2 hne
      rw [ofSpace, Piece.ofSpace_of_notMem hline, hempty, Bool.false_or]
      split
      · rw [hafter.atLineEnd_eq, ← hs.append.eq_offsetOf]
        cases Piece.atLineEnd after <;> rfl
      · next heq => rw [hfind] at heq; cases heq
  | more line rest hline ih =>
      have hfind := find?_newline hs hline
      rw [List.append_assoc] at hs
      have hbehind := hs.append.tail (by decide)
      have hmore : (if start + byteSize line + 1 < buffer.offsetOf after then
            ofSpace buffer (start + byteSize line + 1) (buffer.offsetOf after) else []) =
          kept (start + byteSize line + 1) (Piece.ofSpace after rest) := by
        cases rest with
        | nil =>
            have hstop : start + byteSize line + 1 = buffer.offsetOf after := hbehind.eq_offsetOf
            rw [if_neg (Nat.not_lt.2 (Nat.le_of_eq hstop.symm)),
              Piece.ofSpace_of_notMem List.not_mem_nil]
            rfl
        | cons c rest =>
            rw [if_pos (hbehind.lt_offsetOf (List.suffix_append rest after))]
            exact ih hbehind (List.cons_ne_nil c rest)
      rw [ofSpace, Piece.ofSpace_append hline, kept_append, kept_ofLine, Piece.flatMap_text_ofLine]
      split
      · next heq => rw [hfind] at heq; cases heq
      · next newline heq =>
          rw [hfind] at heq
          cases heq
          simp only [reads_return_iff hs, hmore, byteSize_append, ← Nat.add_assoc]
          rfl

/-- What becomes tokens in place is what becomes of the pieces of the lexemes. -/
theorem ofScan_eq (strip : Bool) {lexemes : List Lexeme}
    (hs : buffer.At start (lexemes.flatMap Lexeme.text))
    (hne : ∀ lexeme ∈ lexemes, lexeme.text ≠ []) :
    ofScan strip buffer start (lexemes.map fun lexeme => (lexeme.kind, lexeme.size)) =
      kept start (Piece.ofLexemes strip (lexemes.flatMap Lexeme.text) lexemes) := by
  induction lexemes generalizing start with
  | nil => rfl
  | cons lexeme more ih =>
      obtain ⟨htext, hmore⟩ := List.forall_mem_cons.1 hne
      rw [List.flatMap_cons] at hs ⊢
      have hbehind := hs.append
      have hstop : min (start + lexeme.size) buffer.length = start + lexeme.size :=
        Nat.min_eq_left hbehind.le_length
      have hpos := Lexeme.size_pos htext
      have hne : start + lexeme.size ≠ start := by omega
      rw [Piece.ofLexemes, List.drop_left, kept_append]
      simp only [List.map_cons, ofScan, hstop, if_neg hne]
      split
      · next hstrip =>
          rw [Piece.flatMap_text_ofSpace, ← ofSpace_eq hs htext, ← hbehind.eq_offsetOf]
          exact congrArg _ (ih hbehind hmore)
      · rw [List.flatMap_singleton]
        exact congrArg _ (ih hbehind hmore)

end Stretch

/-- The tokens of stretches are those of the pieces that stay. -/
theorem Token.cut_kept (locator : Locator) {pieces : List Piece} (rest : List Char)
    (hs : buffer.At start (pieces.flatMap (fun piece => piece.lexeme.text) ++ rest)) :
    Token.cut buffer locator (Stretch.kept start pieces) = Token.locate locator start pieces := by
  induction pieces generalizing start locator with
  | nil => rfl
  | cons piece more ih =>
      rw [List.flatMap_cons, List.append_assoc] at hs
      have hbehind := hs.append
      have hslice := hs.slice_eq (List.suffix_append piece.lexeme.text _)
      rw [← hbehind.eq_offsetOf, before_append] at hslice
      rw [Stretch.kept, Token.locate]
      dsimp only
      split
      · rw [Token.cut]
        dsimp only
        exact congrArg₂ (Token.mk piece.lexeme.kind · _ :: ·) hslice (ih _ hbehind)
      · exact ih locator hbehind

theorem Token.ofScan_eq (config : TokenConfig) {lexemes : List Lexeme}
    (hs : buffer.At start (lexemes.flatMap Lexeme.text))
    (hne : ∀ lexeme ∈ lexemes, lexeme.text ≠ []) :
    Token.ofScan config buffer start (lexemes.map fun lexeme => (lexeme.kind, lexeme.size)) =
      Token.ofLexemesFrom config buffer.text start lexemes := by
  have hpieces := Piece.flatMap_text_ofLexemes config.strip (lexemes.flatMap Lexeme.text) lexemes
  rw [Token.ofScan, Token.ofLexemesFrom, hs.dropBytes_text, Stretch.ofScan_eq config.strip hs hne]
  refine Token.cut_kept _ [] ?_
  rw [hpieces, List.append_nil]
  exact hs

namespace Language

/-- The lexemes of a range are those of its text. -/
theorem lexRange_eq_lex (language : Language) (text : List Char) (range : ByteRange) :
    language.lexRange text range = language.lex (range.slice text) := by
  have hs := range.at_clamp text
  rw [lexRange, language.scan_eq hs]
  refine Buffer.At.lexemes_eq ?_ fun lexeme hmem => text_ne_nil_of_mem_lex hmem
  rw [flatMap_text_lex]
  exact hs

theorem flatMap_text_lexRange (language : Language) (text : List Char) (range : ByteRange) :
    (language.lexRange text range).flatMap Lexeme.text = range.slice text := by
  rw [lexRange_eq_lex, flatMap_text_lex]

/-- The tokens of a range are made from the lexemes of its text. -/
theorem tokenizeRange_eq_ofLexemes (language : Language) (text : List Char) (range : ByteRange)
    (config : TokenConfig) :
    language.tokenizeRange text range config =
      Token.ofLexemesFrom config (range.upTo text) (range.clamp text).start
        (language.lexRange text range) := by
  have hs := range.at_clamp text
  have htile := language.flatMap_text_lex (range.slice text)
  rw [tokenizeRange, language.scan_eq hs, lexRange_eq_lex]
  refine Token.ofScan_eq config ?_ fun lexeme hmem => text_ne_nil_of_mem_lex hmem
  rw [htile]
  exact hs

end Language

end Highlight
