import Highlight.Text

/-!
# Scans that jump

Where a text in quotes ends, a run of literal text or a comment that holds others, only a few
characters tell, and a scan runs from one of these to the next. What such scans have in common is
the run. They differ in the characters that they look at, in what they do at one of them, and in
what they keep in mind on the way.

At a character that a scan looks at it either has its answer, or it goes on with a rest of what is
behind that character. This belongs to the scan, and so a run is total. One character is an equation
in which no jump is left: `run_cons_of_plain` where the scan does not look at it, and
`run_cons_of_looksAt` where it does.
-/

namespace Highlight

/-- A scan that jumps, with a state of type `τ` on the way and an answer of type `α`. -/
structure JumpScan (τ α : Type) where
  /-- Whether the scan looks at a character at all. -/
  looksAt : Char → Bool
  /-- What the scan does at a character that it looks at, with a text behind it: it has its answer,
  or it goes on with a state and a rest. -/
  look : τ → Char → List Char → α ⊕ (τ × List Char)
  /-- The answer at the end of the text. -/
  exhausted : α
  /-- A scan goes on behind the character. -/
  look_suffix : ∀ state c s next, look state c s = .inr next → next.2 <:+ s

namespace JumpScan

variable {τ α : Type} {scan : JumpScan τ α} {state : τ} {c : Char} {s : List Char}

theorem length_lt_of_dropWhile {p : Char → Bool} {more : List Char}
    (h : s.dropWhile p = c :: more) : more.length < s.length := by
  have hle := (List.dropWhile_suffix (l := s) p).length_le
  rw [h, List.length_cons] at hle
  exact hle

/-- The answer of a scan. -/
def run (scan : JumpScan τ α) (state : τ) (s : List Char) : α :=
  match _hjump : s.dropWhile fun c => !scan.looksAt c with
  | [] => scan.exhausted
  | c :: more =>
    match _hlook : scan.look state c more with
    | .inl answer => answer
    | .inr (state, rest) => scan.run state rest
termination_by s.length
decreasing_by
  exact Nat.lt_of_le_of_lt (scan.look_suffix _ _ _ _ _hlook).length_le
    (length_lt_of_dropWhile _hjump)

theorem run_eq (scan : JumpScan τ α) (state : τ) (s : List Char) :
    scan.run state s =
      match s.dropWhile fun c => !scan.looksAt c with
      | [] => scan.exhausted
      | c :: more => (scan.look state c more).elim id fun next => scan.run next.1 next.2 := by
  rw [run]
  split
  · next hjump => rw [hjump]
  · next c more hjump =>
      rw [hjump]
      split
      · next hlook => simp only [hlook, Sum.elim_inl, id]
      · next hlook => simp only [hlook, Sum.elim_inr]

theorem run_nil (scan : JumpScan τ α) (state : τ) : scan.run state [] = scan.exhausted :=
  scan.run_eq state []

theorem run_cons_of_plain (h : scan.looksAt c = false) :
    scan.run state (c :: s) = scan.run state s := by
  rw [run_eq, run_eq scan state s, List.dropWhile_cons_of_pos (by rw [h]; rfl)]

theorem run_cons_of_looksAt (h : scan.looksAt c = true) :
    scan.run state (c :: s) =
      (scan.look state c s).elim id fun next => scan.run next.1 next.2 := by
  rw [run_eq, List.dropWhile_cons_of_neg (by rw [h]; decide)]

/-- What holds of the answers at single characters, and at the end of the text, holds of the answer
of a scan, if it is not lost where the scan passes over something. -/
theorem run_induction {motive : List Char → α → Prop} (hend : motive [] scan.exhausted)
    (hpass : ∀ s s' answer, s' <:+ s → motive s' answer → motive s answer)
    (hlook : ∀ state c s answer, scan.looksAt c = true → scan.look state c s = .inl answer →
      motive (c :: s) answer) (state : τ) (s : List Char) : motive s (scan.run state s) := by
  induction hlength : s.length using Nat.strongRecOn generalizing state s with
  | _ length ih =>
      subst hlength
      cases s with
      | nil =>
          rw [run_nil]
          exact hend
      | cons c s =>
          cases hc : scan.looksAt c with
          | false =>
              rw [run_cons_of_plain hc]
              have hrun := ih s.length (Nat.lt_succ_self _) state s rfl
              exact hpass _ s _ (List.suffix_cons c s) hrun
          | true =>
              rw [run_cons_of_looksAt hc]
              cases hanswer : scan.look state c s with
              | inl answer => exact hlook state c s answer hc hanswer
              | inr next =>
                  have hsuffix := scan.look_suffix state c s next hanswer
                  exact hpass _ next.2 _ (hsuffix.trans (List.suffix_cons c s))
                    (ih next.2.length (Nat.lt_succ_of_le hsuffix.length_le) next.1 next.2 rfl)

/-- The rest that an answer leaves is an ending of the text. -/
theorem run_suffix (rest : α → List Char) (hend : rest scan.exhausted = [])
    (hlook : ∀ state c s answer, scan.look state c s = .inl answer → rest answer <:+ c :: s)
    (state : τ) (s : List Char) : rest (scan.run state s) <:+ s :=
  run_induction (motive := fun s answer => rest answer <:+ s) (hend ▸ List.nil_suffix)
    (fun _ _ _ hs h => h.trans hs) (fun state c s answer _ => hlook state c s answer) state s

end JumpScan

end Highlight
