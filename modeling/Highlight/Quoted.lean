import Highlight.Jump

/-!
# Quoted text

Where a quoted text ends. All functions here start just behind the opening quote and answer with
the rest behind the closing one. They run from one character of interest to the next: everything in
between is skipped at once, and only a quote, a backslash or a newline is looked at.

A backslash and the character after it form one unit. A text that is never closed ends with the
text, or, where it may not span lines, in front of the newline.
-/

namespace Highlight.Quoted

variable {quote c : Char} {escapes multiline : Bool} {s : List Char}

/-- Whether a scan of quoted text looks at a character at all. -/
def looksAt (quote : Char) (escapes multiline : Bool) (c : Char) : Bool :=
  c == quote || (escapes && c == '\x5c') || (!multiline && c == '\n')

theorem looksAt_eq_false_iff :
    looksAt quote escapes multiline c = false ↔
      c ≠ quote ∧ (escapes = true → c ≠ '\x5c') ∧ (multiline = false → c ≠ '\n') := by
  simp only [looksAt, Bool.or_eq_false_iff, beq_eq_false_iff_ne, Bool.and_eq_false_imp,
    Bool.not_eq_true', and_assoc, ne_eq]

/-- The scan of a text in quotes. -/
def single (quote : Char) (escapes multiline : Bool) : JumpScan Unit (List Char) where
  looksAt := looksAt quote escapes multiline
  look _ c s :=
    if c = quote then .inl s
    else if c = '\n' then .inl (c :: s)
    else .inr ((), s.drop 1)
  exhausted := []
  look_suffix _ c s next h := by
    split at h
    · cases h
    · split at h
      · cases h
      · cases h
        exact List.drop_suffix ..

/-- The rest behind a quoted text. -/
def rest (quote : Char) (escapes multiline : Bool) (s : List Char) : List Char :=
  (single quote escapes multiline).run () s

theorem rest_nil : rest quote escapes multiline [] = [] :=
  JumpScan.run_nil ..

theorem rest_cons_of_plain (h : looksAt quote escapes multiline c = false) :
    rest quote escapes multiline (c :: s) = rest quote escapes multiline s :=
  JumpScan.run_cons_of_plain h

theorem rest_cons_of_looksAt (h : looksAt quote escapes multiline c = true) :
    rest quote escapes multiline (c :: s) =
      if c = quote then s
      else if c = '\n' then c :: s
      else rest quote escapes multiline (s.drop 1) := by
  rw [rest, JumpScan.run_cons_of_looksAt h]
  dsimp only [single]
  repeat' split
  all_goals rfl

theorem rest_suffix (quote : Char) (escapes multiline : Bool) (s : List Char) :
    rest quote escapes multiline s <:+ s := by
  refine JumpScan.run_suffix id rfl (fun _ c s answer h => ?_) () s
  simp only [single] at h
  repeat' split at h
  · cases h
    exact List.suffix_cons c s
  · cases h
    exact List.suffix_rfl
  · cases h

/-- The scan of a text in triple quotes: a quote that is not one of three in a row is an ordinary
character. -/
def triple (quote : Char) : JumpScan Unit (List Char) where
  looksAt := looksAt quote true true
  look _ c s :=
    if c = quote then
      match [quote, quote].isPrefixOf? s with
      | some behind => .inl behind
      | none => .inr ((), s)
    else .inr ((), s.drop 1)
  exhausted := []
  look_suffix _ c s next h := by
    split at h
    · split at h
      · cases h
      · cases h
        exact List.suffix_rfl
    · cases h
      exact List.drop_suffix ..

/-- The rest behind a text in triple quotes. -/
def tripleRest (quote : Char) (s : List Char) : List Char :=
  (triple quote).run () s

theorem tripleRest_nil : tripleRest quote [] = [] :=
  JumpScan.run_nil ..

theorem tripleRest_cons_of_plain (h : looksAt quote true true c = false) :
    tripleRest quote (c :: s) = tripleRest quote s :=
  JumpScan.run_cons_of_plain h

theorem tripleRest_cons_of_looksAt (h : looksAt quote true true c = true) :
    tripleRest quote (c :: s) =
      if c = quote then ([quote, quote].isPrefixOf? s).getD (tripleRest quote s)
      else tripleRest quote (s.drop 1) := by
  rw [tripleRest, JumpScan.run_cons_of_looksAt h]
  dsimp only [triple]
  split
  · cases [quote, quote].isPrefixOf? s <;> rfl
  · rfl

theorem tripleRest_suffix (quote : Char) (s : List Char) : tripleRest quote s <:+ s := by
  refine JumpScan.run_suffix id rfl (fun _ c s answer h => ?_) () s
  simp only [triple] at h
  repeat' split at h
  · next hbehind =>
      cases h
      exact (suffix_of_isPrefixOf? hbehind).trans (List.suffix_cons c s)
  · cases h
  · cases h

/-- The rest behind a raw text whose closing quote is followed by a number of hashes. A quote with
fewer hashes is an ordinary character. -/
def hashedRest (hashes : Nat) : List Char → List Char
  | [] => []
  | c :: s =>
    if c = '\x22' then
      match (List.replicate hashes '#').isPrefixOf? s with
      | some behind => behind
      | none => hashedRest hashes s
    else hashedRest hashes s

theorem hashedRest_suffix (hashes : Nat) (s : List Char) : hashedRest hashes s <:+ s := by
  fun_induction hashedRest hashes s with
  | case1 => exact List.suffix_rfl
  | case2 s behind h => exact (suffix_of_isPrefixOf? h).trans (List.suffix_cons _ s)
  | case3 s _ ih => exact ih.trans (List.suffix_cons _ s)
  | case4 c s _ ih => exact ih.trans (List.suffix_cons c s)

end Highlight.Quoted
