import Highlight.Lexer

/-!
# Runs and stretches of them

What a run takes apart can be put together again, and no piece of it is empty: this is the one field
of `Lexer`, carried along a run.

A stretch of a run goes from a state in front of a text to another in front of an ending of it, and
takes lexemes off the front on its way: `Reads`. A run can be cut wherever its list of lexemes can,
and then what was read in front is a stretch, and what is behind it is the run from where the
stretch ends. So a fact about lexemes next to each other in a list is one about steps that follow on
each other, and nothing in front of them matters but the state.
-/

namespace Highlight

theorem before_append_append {text rest : List Char} (h : rest <:+ text) (more : List Char) :
    before (text ++ more) (rest ++ more) = before text rest := by
  obtain ⟨front, rfl⟩ := h
  rw [List.append_assoc, before_append, before_append]

theorem drop_append_of_suffix {text rest : List Char} (h : rest <:+ text) (more : List Char) :
    (text ++ more).drop (text.length - rest.length) = rest ++ more := by
  obtain ⟨front, rfl⟩ := h
  rw [List.length_append, Nat.add_sub_cancel, List.append_assoc, List.drop_left]

theorem before_dropWhile (p : Char → Bool) (s : List Char) :
    before s (s.dropWhile p) = s.takeWhile p := by
  have happ := before_append (s.takeWhile p) (s.dropWhile p)
  rw [List.takeWhile_append_dropWhile] at happ
  exact happ

theorem before_cons_dropWhile (p : Char → Bool) (c : Char) (s : List Char) :
    before (c :: s) (s.dropWhile p) = c :: s.takeWhile p := by
  have happ := before_append (c :: s.takeWhile p) (s.dropWhile p)
  rw [List.cons_append, List.takeWhile_append_dropWhile] at happ
  exact happ

theorem drop_length_takeWhile (p : Char → Bool) (s : List Char) :
    s.drop (s.takeWhile p).length = s.dropWhile p := by
  have hdrop : (s.takeWhile p ++ s.dropWhile p).drop (s.takeWhile p).length = s.dropWhile p :=
    List.drop_left
  rw [List.takeWhile_append_dropWhile] at hdrop
  exact hdrop

namespace Lexer

variable {σ : Type}

theorem step_suffix_cons (lexer : Lexer σ) (state : σ) (c : Char) (s : List Char) :
    (lexer.step state c s).rest <:+ c :: s :=
  (lexer.rest_suffix state c s).trans (List.suffix_cons c s)

/-- A step takes the first character, and some of those behind it. -/
theorem exists_taken (lexer : Lexer σ) (state : σ) (c : Char) (s : List Char) :
    ∃ taken, s = taken ++ (lexer.step state c s).rest ∧
      before (c :: s) (lexer.step state c s).rest = c :: taken := by
  obtain ⟨taken, htaken⟩ := lexer.rest_suffix state c s
  have htext := before_append (c :: taken) (lexer.step state c s).rest
  rw [List.cons_append, htaken] at htext
  exact ⟨taken, htaken.symm, htext⟩

theorem flatMap_text_run (lexer : Lexer σ) (state : σ) (text : List Char) :
    (lexer.run state text).flatMap Lexeme.text = text := by
  fun_induction lexer.run state text with
  | case1 => rfl
  | case2 state c s next ih =>
      rw [List.flatMap_cons, ih]
      exact before_append_of_suffix (lexer.step_suffix_cons state c s)

/-- What a step takes is not empty: it leaves less than it found. -/
theorem before_step_ne_nil (lexer : Lexer σ) (state : σ) (c : Char) (s : List Char) :
    before (c :: s) (lexer.step state c s).rest ≠ [] := by
  intro hnil
  have happ := before_append_of_suffix (lexer.step_suffix_cons state c s)
  rw [hnil, List.nil_append] at happ
  have hle := (lexer.rest_suffix state c s).length_le
  rw [happ, List.length_cons] at hle
  exact absurd hle (Nat.not_succ_le_self _)

theorem text_ne_nil_of_mem_run {lexer : Lexer σ} {state : σ} {text : List Char} {lexeme : Lexeme}
    (h : lexeme ∈ lexer.run state text) : lexeme.text ≠ [] := by
  fun_induction lexer.run state text with
  | case1 => cases h
  | case2 state c s next ih =>
      rcases List.mem_cons.1 h with rfl | hmore
      · exact lexer.before_step_ne_nil state c s
      · exact ih hmore

/-- What is in front of the rest of a rest. -/
theorem before_append_before {text s rest : List Char} (hs : s <:+ text) (hrest : rest <:+ s) :
    before text s ++ before s rest = before text rest := by
  obtain ⟨front, rfl⟩ := hs
  obtain ⟨taken, rfl⟩ := hrest
  rw [before_append, before_append, ← List.append_assoc, before_append]

theorem Visits.suffix {lexer : Lexer σ} {state : σ} {text s : List Char}
    (h : lexer.Visits text state s) : s <:+ text := by
  induction h with
  | start => exact List.suffix_rfl
  | step h ih => exact (lexer.step_suffix_cons _ _ _).trans ih

theorem Visits.before_step {lexer : Lexer σ} {state : σ} {text s : List Char} {c : Char}
    (h : lexer.Visits text state (c :: s)) :
    before text (lexer.step state c s).rest =
      before text (c :: s) ++ before (c :: s) (lexer.step state c s).rest :=
  (before_append_before h.suffix (lexer.step_suffix_cons state c s)).symm

theorem Visits.run_suffix {lexer : Lexer σ} {state : σ} {text s : List Char}
    (h : lexer.Visits text state s) : lexer.run state s <:+ lexer.lex text := by
  induction h with
  | start => exact List.suffix_rfl
  | step h ih =>
      rw [run_cons] at ih
      exact (List.suffix_cons _ _).trans ih

theorem Visits.mem_lex {lexer : Lexer σ} {state : σ} {text s : List Char} {c : Char}
    (h : lexer.Visits text state (c :: s)) :
    ⟨(lexer.step state c s).kind, before (c :: s) (lexer.step state c s).rest⟩ ∈
      lexer.lex text := by
  have hsuffix := h.run_suffix
  rw [run_cons] at hsuffix
  exact hsuffix.mem List.mem_cons_self

theorem Visits.of_step_eq {lexer : Lexer σ} {state state' : σ} {text s rest : List Char} {c : Char}
    (h : lexer.Visits text state (c :: s)) (hstate : (lexer.step state c s).state = state')
    (hrest : (lexer.step state c s).rest = rest) : lexer.Visits text state' rest :=
  hstate ▸ hrest ▸ h.step

/-! ## Stretches

`Visits` says that a run comes to a place, and `Reads` says what lexemes it gives on the way from
one place to another. Stretches that meet are put together, so what is written in parts is read back
in parts. -/

variable {lexer : Lexer σ} {state state' : σ} {text s rest : List Char}
  {front back lexemes : List Lexeme}

/-- That from a state in front of a text a lexer reads a list of lexemes and is in another state in
front of the rest then. -/
inductive Reads (lexer : Lexer σ) : σ → List Char → List Lexeme → σ → List Char → Prop where
  | nil {state : σ} {s : List Char} : Reads lexer state s [] state s
  | cons {state state' : σ} {c : Char} {s rest : List Char} {lexemes : List Lexeme}
      (more : Reads lexer (lexer.step state c s).state (lexer.step state c s).rest lexemes state'
        rest) :
      Reads lexer state (c :: s)
        (⟨(lexer.step state c s).kind, before (c :: s) (lexer.step state c s).rest⟩ :: lexemes)
        state' rest

theorem Reads.visits (h : lexer.Reads state s lexemes state' rest)
    (hvisits : lexer.Visits text state s) : lexer.Visits text state' rest := by
  induction h with
  | nil => exact hvisits
  | cons more ih => exact ih hvisits.step

/-- A run is cut where its list of lexemes is. -/
theorem exists_reads (h : lexer.run state s = front ++ back) :
    ∃ state' rest, lexer.Reads state s front state' rest ∧ lexer.run state' rest = back := by
  induction front generalizing state s with
  | nil => exact ⟨state, s, .nil, h⟩
  | cons lexeme front ih =>
      cases s with
      | nil =>
          rw [run_nil] at h
          cases h
      | cons c s =>
          rw [run_cons, List.cons_append] at h
          obtain ⟨hlexeme, hmore⟩ := List.cons.inj h
          obtain ⟨state', rest, hreads, hback⟩ := ih hmore
          exact ⟨state', rest, hlexeme ▸ .cons hreads, hback⟩

/-- The first lexeme of a run is that of a step. -/
theorem exists_step_of_run_eq {lexeme : Lexeme} (h : lexer.run state s = lexeme :: back) :
    ∃ c t, s = c :: t ∧
      lexeme = ⟨(lexer.step state c t).kind, before (c :: t) (lexer.step state c t).rest⟩ ∧
      lexer.run (lexer.step state c t).state (lexer.step state c t).rest = back := by
  cases s with
  | nil =>
      rw [run_nil] at h
      cases h
  | cons c t =>
      rw [run_cons] at h
      obtain ⟨hlexeme, hmore⟩ := List.cons.inj h
      exact ⟨c, t, rfl, hlexeme.symm, hmore⟩

theorem Reads.flatMap_text (h : lexer.Reads state s lexemes state' rest) :
    lexemes.flatMap Lexeme.text ++ rest = s := by
  induction h with
  | nil => rfl
  | @cons state _ c s _ _ _ ih =>
      rw [List.flatMap_cons, List.append_assoc, ih]
      exact before_append_of_suffix (lexer.step_suffix_cons state c s)

/-- Every lexeme of a text is that of a step. What was read in front of the step is the text of the
lexemes in front of it, and the run goes on with those behind it. -/
theorem exists_visits {lexeme : Lexeme} (h : lexer.lex text = front ++ lexeme :: back) :
    ∃ state c s, lexer.Visits text state (c :: s) ∧
      before text (c :: s) = front.flatMap Lexeme.text ∧
      lexeme = ⟨(lexer.step state c s).kind, before (c :: s) (lexer.step state c s).rest⟩ ∧
      lexer.run (lexer.step state c s).state (lexer.step state c s).rest = back := by
  obtain ⟨state, rest, hreads, hrun⟩ := exists_reads h
  obtain ⟨c, s, rfl, hlexeme, hback⟩ := exists_step_of_run_eq hrun
  have hfront : before text (c :: s) = front.flatMap Lexeme.text := by
    rw [← hreads.flatMap_text, before_append]
  exact ⟨state, c, s, hreads.visits .start, hfront, hlexeme, hback⟩

variable {state'' : σ} {kind : Kind} {word : List Char} {more : List Lexeme}

theorem Reads.append {t : List Char} (h : lexer.Reads state s lexemes state' t)
    (hmore : lexer.Reads state' t more state'' rest) :
    lexer.Reads state s (lexemes ++ more) state'' rest := by
  induction h with
  | nil => exact hmore
  | cons _ ih => exact .cons (ih hmore)

/-- A step that leaves what is behind a word reads the word. -/
theorem Reads.of_step {c : Char} (h : lexer.step state c (word ++ rest) = ⟨kind, rest, state'⟩) :
    lexer.Reads state (c :: (word ++ rest)) [⟨kind, c :: word⟩] state' rest := by
  have hreads : lexer.Reads state (c :: (word ++ rest)) _ state' rest :=
    .cons (by rw [h]; exact .nil)
  rw [h, ← List.cons_append, before_append] at hreads
  exact hreads

/-- That from a state a lexer reads the texts of lexemes as these lexemes, with a rest behind them,
and is in another state then. -/
def ReadsBack (lexer : Lexer σ) (state : σ) (lexemes : List Lexeme) (state' : σ)
    (rest : List Char) : Prop :=
  lexer.Reads state (lexemes.flatMap Lexeme.text ++ rest) lexemes state' rest

theorem ReadsBack.nil : lexer.ReadsBack state [] state rest :=
  Reads.nil

theorem ReadsBack.append
    (h : lexer.ReadsBack state lexemes state' (more.flatMap Lexeme.text ++ rest))
    (hmore : lexer.ReadsBack state' more state'' rest) :
    lexer.ReadsBack state (lexemes ++ more) state'' rest := by
  rw [ReadsBack, List.flatMap_append, List.append_assoc]
  exact Reads.append h hmore

theorem ReadsBack.of_step {c : Char}
    (h : lexer.step state c (word ++ rest) = ⟨kind, rest, state'⟩) :
    lexer.ReadsBack state [⟨kind, c :: word⟩] state' rest := by
  rw [ReadsBack, List.flatMap_singleton]
  exact Reads.of_step h

end Lexer

end Highlight
