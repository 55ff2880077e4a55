import Highlight.Proofs.BlockStarts
import Highlight.Proofs.Boundary

/-!
# Links

The text of a link is in square brackets and may hold such brackets itself, if they match. Which
bracket matches which is a matter of nesting, and the scan only counts how many are open. Over a
text whose brackets match, the count comes back to what it was and does not fall below it on the
way. So it is not zero before the bracket that closes the link. The induction is on how the brackets
nest, and the number of those that are open around them is left free.

A bracket that is never matched is read to the end of its line. Others behind it may open and close
there, and each time the count is back where it was, in front of a shorter line on which nothing
matches the first bracket either.
-/

namespace Highlight.Markdown

variable {c closing : Char} {t u s rest line : List Char}

/-- Texts whose square brackets match. -/
inductive Balanced : List Char → Prop where
  | nil : Balanced []
  | plain {c : Char} {t : List Char} (hopening : c ≠ '[') (hclosing : c ≠ ']')
      (more : Balanced t) : Balanced (c :: t)
  | brackets {inner t : List Char} (hinner : Balanced inner) (more : Balanced t) :
      Balanced ('[' :: (inner ++ ']' :: t))

theorem Balanced.count_eq (h : Balanced t) : t.count ']' = t.count '[' := by
  induction h with
  | nil => rfl
  | plain hopening hclosing _ ih => simp [hopening, hclosing, ih]
  | brackets _ _ ihinner ih =>
      simp [ihinner, ih]
      omega

theorem behindBrackets_zero (s : List Char) : behindBrackets 0 s = (0, s) := by
  rw [behindBrackets]

theorem behindBrackets_opening (depth : Nat) (s : List Char) :
    behindBrackets (depth + 1) ('[' :: s) = behindBrackets (depth + 2) s := by
  rw [behindBrackets, if_pos rfl]

theorem behindBrackets_closing (depth : Nat) (s : List Char) :
    behindBrackets (depth + 1) (']' :: s) = behindBrackets depth s := by
  rw [behindBrackets, if_neg (by decide), if_pos rfl]

theorem behindBrackets_plain (hopening : c ≠ '[') (hclosing : c ≠ ']') (hline : c ≠ '\n')
    (depth : Nat) (s : List Char) :
    behindBrackets (depth + 1) (c :: s) = behindBrackets (depth + 1) s := by
  rw [behindBrackets, if_neg hopening, if_neg hclosing, if_neg hline]

theorem behindBrackets_newline (depth : Nat) (s : List Char) :
    behindBrackets (depth + 1) ('\n' :: s) = (depth + 1, '\n' :: s) := by
  rw [behindBrackets, if_neg (by decide), if_neg (by decide), if_pos rfl]

/-- Behind a text whose brackets match as many are open as in front of it, and the scan does not end
in it. -/
theorem Balanced.behindBrackets_append (h : Balanced t) (hline : '\n' ∉ t) (depth : Nat)
    (s : List Char) : behindBrackets (depth + 1) (t ++ s) = behindBrackets (depth + 1) s := by
  induction h generalizing depth s with
  | nil => rfl
  | @plain c t hopening hclosing _ ih =>
      simp only [List.mem_cons, not_or] at hline
      rw [List.cons_append, behindBrackets_plain hopening hclosing (Ne.symm hline.1)]
      exact ih hline.2 depth s
  | @brackets inner t _ _ ihinner ih =>
      simp only [List.mem_cons, List.mem_append, not_or] at hline
      obtain ⟨-, hinner, -, hmore⟩ := hline
      rw [List.cons_append, List.append_assoc, List.cons_append, behindBrackets_opening,
        ihinner hinner (depth + 1), behindBrackets_closing]
      exact ih hmore depth s

/-- A bracket that nothing on its line matches is still open at the end of the line, with however
many more. -/
theorem exists_behindBrackets_eq (hopen : ∀ t, Balanced t → ¬ t ++ [']'] <+: line)
    (hline : '\n' ∉ line) (hrest : Stops (· != '\n') rest) (depth : Nat) :
    ∃ more, behindBrackets (depth + 1) (line ++ rest) = (more + 1, rest) := by
  induction hlength : line.length using Nat.strongRecOn generalizing line depth with
  | _ length ih =>
      subst hlength
      cases line with
      | nil =>
          cases rest with
          | nil => exact ⟨depth, by rw [List.nil_append, behindBrackets]⟩
          | cons c rest =>
              obtain rfl : c = '\n' := by simpa using hrest.head
              exact ⟨depth, behindBrackets_newline depth rest⟩
      | cons c line =>
          simp only [List.mem_cons, not_or] at hline
          obtain ⟨hc, hline⟩ := hline
          rw [List.cons_append]
          by_cases hopening : c = '['
          · subst hopening
            rw [behindBrackets_opening]
            by_cases hmatch : ∃ t, Balanced t ∧ t ++ [']'] <+: line
            · -- The bracket is closed again. What is behind that is as open as before.
              obtain ⟨t, ht, more, rfl⟩ := hmatch
              simp only [List.append_assoc, List.singleton_append, List.mem_append, List.mem_cons,
                not_or] at hline hopen ⊢
              rw [ht.behindBrackets_append hline.1 (depth + 1), List.cons_append,
                behindBrackets_closing]
              refine ih more.length ?_ (fun t' ht' hprefix => ?_) hline.2.2 depth rfl
              · simp only [List.length_cons, List.length_append]
                omega
              · obtain ⟨w, rfl⟩ := hprefix
                exact hopen _ (ht.brackets ht') ⟨w, by simp⟩
            · exact ih line.length (by simp) (fun t ht hprefix => hmatch ⟨t, ht, hprefix⟩) hline
                (depth + 1) rfl
          · by_cases hclosing : c = ']'
            · subst hclosing
              exact absurd ⟨line, rfl⟩ (hopen [] .nil)
            · rw [behindBrackets_plain hopening hclosing (Ne.symm hc)]
              refine ih line.length (by simp) (fun t ht hprefix => ?_) hline depth rfl
              exact hopen (c :: t) (.plain hopening hclosing ht)
                (List.cons_prefix_cons.2 ⟨rfl, hprefix⟩)

theorem behindOnLine_append (hclosing : closing ∉ u) (hline : '\n' ∉ u) (rest : List Char) :
    behindOnLine closing (u ++ closing :: rest) = rest := by
  have hu : ∀ c ∈ u, (c != closing && c != '\n') = true := by
    intro c hc
    have hne : c ≠ closing := fun h => hclosing (h ▸ hc)
    have hnewline : c ≠ '\n' := fun h => hline (h ▸ hc)
    simp [hne, hnewline]
  have hdrop : (u ++ closing :: rest).dropWhile (fun c => c != closing && c != '\n') =
      closing :: rest := by
    rw [List.dropWhile_append_of_pos hu, List.dropWhile_cons_of_neg (by simp)]
  rw [behindOnLine, hdrop]
  exact if_pos rfl

theorem behindTarget_eq_self (hround : rest.head? ≠ some '(') (hsquare : rest.head? ≠ some '[') :
    behindTarget rest = rest := by
  unfold behindTarget
  split
  · exact absurd rfl hround
  · exact absurd rfl hsquare
  · rfl

theorem Balanced.behindLink_append (h : Balanced t) (hline : '\n' ∉ t) (rest : List Char) :
    behindLink (t ++ ']' :: rest) = behindTarget rest := by
  rw [behindLink, h.behindBrackets_append hline 0, behindBrackets_closing, behindBrackets_zero]
  rfl

theorem behindLink_eq_of_open (hopen : ∀ t, Balanced t → ¬ t ++ [']'] <+: line)
    (hline : '\n' ∉ line) (hrest : Stops (· != '\n') rest) : behindLink (line ++ rest) = rest := by
  obtain ⟨more, hbrackets⟩ := exists_behindBrackets_eq hopen hline hrest 0
  rw [behindLink, hbrackets]
  rfl

/-- That a link in front of a rest is read whole and alone: by offset, in any text, and as one
lexeme, wherever the lexer stands. -/
def ReadsLink (link rest : List Char) : Prop :=
  (∀ front, Offset.recognise? scanLink (front ++ (link ++ rest)) (byteSize front) =
    some (.nameLabel, byteSize (front ++ link))) ∧
  ∀ lineStart, lexer.Reads lineStart (link ++ rest) [⟨.nameLabel, link⟩] false rest

theorem readsLink_of_behindLink (h : behindLink (s ++ rest) = rest) :
    ReadsLink ('[' :: s) rest := by
  have hscan : scanLink ('[' :: s ++ rest) = some ⟨.nameLabel, rest⟩ := by
    rw [List.cons_append, scanLink, if_pos rfl, h]
  refine ⟨fun front => Offset.recognise?_append front hscan, fun lineStart => ?_⟩
  have hfound : Rule.firstOf (rulesAt lineStart) ('[' :: (s ++ rest)) =
      some ⟨.nameLabel, rest⟩ := by
    rw [← hscan]
    cases lineStart <;> rfl
  exact Lexer.Reads.of_step (step_of_found (by decide) hfound)

theorem Balanced.readsLink {target : List Char} (h : Balanced t) (hline : '\n' ∉ t)
    (htarget : behindTarget (target ++ rest) = rest) :
    ReadsLink (['['] ++ t ++ [']'] ++ target) rest := by
  have hlink := h.behindLink_append hline (target ++ rest)
  have hassoc : t ++ ']' :: (target ++ rest) = t ++ ']' :: target ++ rest := by simp
  rw [htarget, hassoc] at hlink
  have hreads := readsLink_of_behindLink hlink
  simpa using hreads

/-- A link is read to the bracket that matches its first one, and with a target in parentheses or
brackets to the end of that. If nothing on its line matches the first bracket, the line is read to
its end. -/
theorem readsLink_balanced :
    (∀ t, Balanced t → '\n' ∉ t →
      (∀ u rest, ')' ∉ u → '\n' ∉ u →
        ReadsLink (['['] ++ t ++ [']'] ++ (['('] ++ u ++ [')'])) rest) ∧
      (∀ u rest, ']' ∉ u → '\n' ∉ u →
        ReadsLink (['['] ++ t ++ [']'] ++ (['['] ++ u ++ [']'])) rest) ∧
      ∀ rest : List Char, rest.head? ≠ some '(' → rest.head? ≠ some '[' →
        ReadsLink (['['] ++ t ++ [']']) rest) ∧
    ∀ s : List Char, (∀ t, Balanced t → ¬ t ++ [']'] <+: s.takeWhile (· != '\n')) →
      ReadsLink (['['] ++ s.takeWhile (· != '\n')) (s.dropWhile (· != '\n')) := by
  refine ⟨fun t ht hline => ⟨fun u rest hu huline => ?_, fun u rest hu huline => ?_,
    fun rest hround hsquare => ?_⟩, fun s hopen => ?_⟩
  · refine ht.readsLink hline ?_
    rw [List.append_assoc, List.append_assoc]
    exact behindOnLine_append hu huline rest
  · refine ht.readsLink hline ?_
    rw [List.append_assoc, List.append_assoc]
    exact behindOnLine_append hu huline rest
  · have hreads := @Balanced.readsLink t rest [] ht hline (behindTarget_eq_self hround hsquare)
    rwa [List.append_nil] at hreads
  · refine readsLink_of_behindLink (behindLink_eq_of_open hopen ?_ (.dropWhile _ s))
    intro hmem
    simpa using List.mem_takeWhile_imp hmem

/-- Brackets in the text and in the target, and a bracket that is open still where others are
closed. -/
theorem readsLink_nested :
    let t := ['a', '[', 'é', ']']
    let line := ['[', 'a', ']', '[']
    Balanced t ∧ (∀ t, Balanced t → ¬ t ++ [']'] <+: line) ∧
      Offset.recognise? scanLink "x[a[é]](u[)]".toList 1 = some (.nameLabel, 12) ∧
      Offset.recognise? scanLink "x[a[é]][u(])".toList 1 = some (.nameLabel, 12) ∧
      Offset.recognise? scanLink "x[a[é]]é(u)".toList 1 = some (.nameLabel, 8) ∧
      Offset.recognise? scanLink "é[[a][\n]]".toList 2 = some (.nameLabel, 7) := by
  intro t line
  have ht : Balanced t :=
    .plain (by decide) (by decide)
      (@Balanced.brackets ['é'] [] (.plain (by decide) (by decide) .nil) .nil)
  have hopen : ∀ t, Balanced t → ¬ t ++ [']'] <+: line := by
    intro t ht hprefix
    have hcount : ∀ w ∈ line.inits, w.count ']' ≤ w.count '[' := by decide
    have hle := hcount _ ((List.mem_inits _ _).2 hprefix)
    rw [List.count_append, List.count_append, ht.count_eq] at hle
    exact absurd (Nat.le_of_add_le_add_left hle) (by decide)
  obtain ⟨hround, hsquare, hnone⟩ := readsLink_balanced.1 t ht (by decide)
  have hline := readsLink_balanced.2 (line ++ ['\n', ']', ']']) hopen
  exact ⟨ht, hopen, (hround ['u', '['] [']'] (by decide) (by decide)).1 ['x'],
    (hsquare ['u', '('] [')'] (by decide) (by decide)).1 ['x'],
    (hnone ['é', '(', 'u', ')'] (by decide) (by decide)).1 ['x'], hline.1 ['é']⟩

end Highlight.Markdown
