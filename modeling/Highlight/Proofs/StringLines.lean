import Highlight.Proofs.JsonGrammar
import Highlight.Proofs.RuleKinds
import Highlight.Proofs.RangeScans

/-!
# Strings and the lines they are on

A quoted text is read in units, which are plain characters and escapes. `Quoted.Body` is the grammar
of a text that is all units, and there are only three ways for a scan to leave one: behind the
closing quote, in front of what stops it, and behind a backslash with nothing to escape. What stops
it is the end of the text, and a newline where the text may not span lines.

So a newline is in such a text only as the second half of an escape. That much is true of strings
whose escapes are not looked into, and it is all: a backslash at the end of a line takes the string
into the next one, and a string that may not span lines is not kept from that.
-/

namespace Highlight

namespace Quoted

variable {quote : Char} {escapes multiline : Bool} {body front back : List Char}

/-- A quoted text is left behind units: behind the quote that closes it, at the end of the text or
of a line that it may not leave, or behind a backslash that ends the text. -/
theorem exists_body (quote : Char) (escapes multiline : Bool) (s : List Char) :
    ∃ body, Body quote escapes multiline body ∧
      (s = body ++ quote :: rest quote escapes multiline s ∨
        s = body ++ rest quote escapes multiline s ∧
          (rest quote escapes multiline s = [] ∨
            multiline = false ∧ (rest quote escapes multiline s).head? = some '\n') ∨
        s = body ++ ['\x5c'] ∧ rest quote escapes multiline s = []) := by
  match s with
  | [] => exact ⟨[], .nil, .inr (.inl ⟨by rw [rest_nil]; rfl, .inl rest_nil⟩)⟩
  | c :: s =>
      by_cases hlook : looksAt quote escapes multiline c = true
      · rw [rest_cons_of_looksAt hlook]
        by_cases hquote : c = quote
        · rw [if_pos hquote, hquote]
          exact ⟨[], .nil, .inl rfl⟩
        · rw [if_neg hquote]
          by_cases hline : c = '\n'
          · rw [if_pos hline, hline]
            rw [hline] at hlook hquote
            refine ⟨[], .nil, .inr (.inl ⟨rfl, .inr ⟨?_, rfl⟩⟩)⟩
            simpa [looksAt, hquote] using hlook
          · -- Nothing but a backslash is left to be looked at.
            rw [if_neg hline]
            have hescape : escapes = true ∧ c = '\x5c' := by
              simpa [looksAt, hquote, hline] using hlook
            obtain ⟨rfl, rfl⟩ := hescape
            match s with
            | [] =>
                rw [List.drop_nil, rest_nil]
                exact ⟨[], .nil, .inr (.inr ⟨rfl, rfl⟩)⟩
            | d :: s =>
                rw [List.drop_one, List.tail_cons]
                obtain ⟨body, hbody, hends⟩ := exists_body quote true multiline s
                refine ⟨'\x5c' :: d :: body, .escape rfl hbody, ?_⟩
                simpa only [List.cons_append, List.cons.injEq, true_and] using hends
      · rw [Bool.not_eq_true] at hlook
        rw [rest_cons_of_plain hlook]
        obtain ⟨hquote, hescape, hline⟩ := looksAt_eq_false_iff.1 hlook
        obtain ⟨body, hbody, hends⟩ := exists_body quote escapes multiline s
        refine ⟨c :: body, .plain hquote hescape hline hbody, ?_⟩
        simpa only [List.cons_append, List.cons.injEq, true_and] using hends
termination_by s.length

/-- Units that may not span lines are cut by a newline in the middle of an escape. -/
theorem Body.exists_escape (h : Body quote escapes false body)
    (hsplit : body = front ++ '\n' :: back) :
    ∃ units, Body quote escapes false units ∧ front = units ++ ['\x5c'] := by
  induction h generalizing front with
  | nil => cases front <;> cases hsplit
  | plain hquote hescape hline more ih =>
      cases front with
      | nil => exact absurd (List.cons.inj hsplit).1 (hline rfl)
      | cons d front =>
          obtain ⟨rfl, htail⟩ := List.cons.inj hsplit
          obtain ⟨units, hunits, rfl⟩ := ih htail
          exact ⟨_, .plain hquote hescape hline hunits, rfl⟩
  | escape hescapes more ih =>
      match front with
      | [] => exact absurd (List.cons.inj hsplit).1 (by decide)
      | [d] =>
          obtain ⟨rfl, -⟩ := List.cons.inj hsplit
          exact ⟨[], .nil, rfl⟩
      | d :: e :: front =>
          obtain ⟨rfl, hpair⟩ := List.cons.inj hsplit
          obtain ⟨rfl, htail⟩ := List.cons.inj hpair
          obtain ⟨units, hunits, rfl⟩ := ih htail
          exact ⟨_, .escape hescapes hunits, rfl⟩

theorem Body.newline_mem_iff (h : Body quote escapes false body) :
    '\n' ∈ body ↔ ∃ units more, Body quote escapes false units ∧
      body = units ++ '\x5c' :: '\n' :: more := by
  constructor
  · intro hmem
    obtain ⟨front, more, hsplit⟩ := List.append_of_mem hmem
    obtain ⟨units, hunits, rfl⟩ := h.exists_escape hsplit
    exact ⟨units, more, hunits, by rw [hsplit, List.append_assoc]; rfl⟩
  · rintro ⟨units, more, -, rfl⟩
    simp

end Quoted

namespace Json

variable {front back : List Lexeme} {lexeme : Lexeme} {c : Char} {s : List Char} {r : Match}

theorem gives_scanString : Rule.Gives scanString [.nameTag, .string] := by
  intro s r hr
  unfold scanString at hr
  repeat' split at hr
  · cases hr
  · cases hr
    dsimp only
    split
    · exact List.mem_cons_self
    · exact List.mem_cons_of_mem _ (List.mem_singleton_self _)
  · cases hr

theorem gives_scanNumber : Rule.Gives scanNumber NumberSyntax.kinds := by
  intro s r hr
  have hfraction (s : List Char) : (fraction s).kind ∈ NumberSyntax.kinds := by
    unfold fraction
    repeat' split
    · exact (by decide : Kind.numberFloat ∈ NumberSyntax.kinds)
    · exact (by decide : Kind.numberInteger ∈ NumberSyntax.kinds)
    · exact (by decide : Kind.numberInteger ∈ NumberSyntax.kinds)
  unfold scanNumber at hr
  split at hr
  · cases hr
    unfold NumberSyntax.withExponent
    split
    · exact (by decide : Kind.numberFloat ∈ NumberSyntax.kinds)
    · exact hfraction _
  · cases hr

theorem gives_scanConstant : Rule.Gives scanConstant [.keywordConstant] := by
  intro s r hr
  obtain ⟨rest, -, rfl⟩ := Option.map_eq_some_iff.1 hr
  exact List.mem_singleton_self _

/-- Only the rule for strings gives one. -/
theorem scanString_of_kind (h : Rule.firstOf rules s = some r)
    (hkind : r.kind ∈ [Kind.string, .nameTag]) : scanString s = some r := by
  obtain ⟨rule, hmem, hrule⟩ := List.exists_of_findSome?_eq_some h
  have hother {kinds : List Kind} (hgives : rule.Gives kinds)
      (hnot : ∀ kind ∈ kinds, kind ∉ [Kind.string, .nameTag]) : scanString s = some r :=
    absurd hkind (hnot _ (hgives s r hrule))
  simp only [rules, List.mem_cons, List.not_mem_nil, or_false] at hmem
  rcases hmem with rfl | rfl | rfl | rfl | rfl
  · exact hother (Rule.gives_run _ _) (by decide)
  · exact hrule
  · exact hother gives_scanNumber (by decide)
  · exact hother gives_scanConstant (by decide)
  · exact hother (Rule.gives_single _ _) (by decide)

/-- Units and what is behind them make a string, from its opening quote on. -/
theorem exists_body_of_scanString (h : scanString (c :: s) = some r) :
    ∃ body, Quoted.Body '\x22' true false body ∧
      (before (c :: s) r.rest = quoted body ∨
        before (c :: s) r.rest = '\x22' :: body ∧ (r.rest = [] ∨ r.rest.head? = some '\n') ∨
        before (c :: s) r.rest = '\x22' :: (body ++ ['\x5c']) ∧ r.rest = []) := by
  obtain ⟨rfl, hrest⟩ : c = '\x22' ∧ r.rest = Quoted.rest '\x22' true false s := by
    simp only [scanString] at h
    split at h
    · next hc =>
        cases h
        exact ⟨hc, rfl⟩
    · cases h
  obtain ⟨body, hbody, hends⟩ := Quoted.exists_body '\x22' true false s
  rw [← hrest] at hends
  refine ⟨body, hbody, ?_⟩
  rcases hends with hclosed | ⟨hcut, hover⟩ | ⟨hcut, hover⟩
  · have htext := before_append (quoted body) r.rest
    rw [quoted, List.cons_append, List.append_assoc, List.cons_append, List.nil_append,
      ← hclosed] at htext
    exact .inl htext
  · have htext := before_append ('\x22' :: body) r.rest
    rw [List.cons_append, ← hcut] at htext
    exact .inr (.inl ⟨htext, hover.imp_right And.right⟩)
  · have htext := before_append ('\x22' :: s) []
    rw [List.append_nil] at htext
    rw [hover, htext, hcut]
    exact .inr (.inr ⟨rfl, rfl⟩)

/-- A string of either kind is a quote and units behind it. It is closed by a quote, or it ends with
its line or with the range, where a backslash may be left over. There is a newline in it exactly if
one of its units is an escaped newline. -/
theorem lexRange_string (text : List Char) (range : ByteRange)
    (h : Language.json.lexRange text range = front ++ lexeme :: back)
    (hkind : lexeme.kind ∈ [Kind.string, .nameTag]) :
    ∃ body, Quoted.Body '\x22' true false body ∧
      (lexeme.text = quoted body ∨
        lexeme.text = '\x22' :: body ∧
          (back = [] ∨ (back.flatMap Lexeme.text).head? = some '\n') ∨
        lexeme.text = '\x22' :: (body ++ ['\x5c']) ∧ back = []) ∧
      ('\n' ∈ lexeme.text ↔
        ∃ units more, Quoted.Body '\x22' true false units ∧
          body = units ++ '\x5c' :: '\n' :: more) := by
  rw [Language.lexRange_eq_lex] at h
  obtain ⟨state, c, s, -, -, rfl, hback⟩ := Lexer.exists_visits h
  have hstep : lexer.step state c s = ⟨(Lexer.scanOr .error (Rule.firstOf rules) c s).kind,
      (Lexer.scanOr .error (Rule.firstOf rules) c s).rest, ()⟩ := rfl
  rw [hstep] at hkind hback ⊢
  cases hfound : Rule.firstOf rules (c :: s) with
  | none =>
      rw [Lexer.scanOr, hfound] at hkind
      exact absurd hkind (by decide : Kind.error ∉ [Kind.string, .nameTag])
  | some found =>
      rw [Lexer.scanOr, hfound, Option.getD_some] at hkind hback ⊢
      have hrest : back.flatMap Lexeme.text = found.rest := by
        rw [← hback, Lexer.flatMap_text_run]
      have hnil (h : found.rest = []) : back = [] := by
        rw [← hback, h, Lexer.run_nil]
      obtain ⟨body, hbody, hends⟩ := exists_body_of_scanString (scanString_of_kind hfound hkind)
      refine ⟨body, hbody, ?_, ?_⟩
      · rw [hrest]
        exact hends.imp_right (Or.imp (And.imp_right (Or.imp_left hnil)) (And.imp_right hnil))
      · rw [← hbody.newline_mem_iff]
        rcases hends with htext | ⟨htext, -⟩ | ⟨htext, -⟩
        · simp [htext, quoted]
        · simp [htext]
        · simp [htext]

/-- The name of a member goes on in the next line and is closed there, and its value is not. -/
theorem lexRange_string_name :
    let name : Lexeme := ⟨.nameTag, "\"a\\\\\\\nb\"".toList⟩
    let back : List Lexeme :=
      [⟨.punctuation, [':']⟩, ⟨.string, "\"c".toList⟩, ⟨.whitespace, ['\n']⟩]
    Language.json.lexRange "é\x7b\"a\\\\\\\nb\":\"c\n\"".toList ⟨2, 15⟩ =
        [⟨.punctuation, ['\x7b']⟩] ++ name :: back ∧
      ∃ body, Quoted.Body '\x22' true false body ∧
        (name.text = quoted body ∨
          name.text = '\x22' :: body ∧
            (back = [] ∨ (back.flatMap Lexeme.text).head? = some '\n') ∨
          name.text = '\x22' :: (body ++ ['\x5c']) ∧ back = []) ∧
        ('\n' ∈ name.text ↔
          ∃ units more, Quoted.Body '\x22' true false units ∧
            body = units ++ '\x5c' :: '\n' :: more) := by
  intro name back
  have hlex : Language.json.lexRange "é\x7b\"a\\\\\\\nb\":\"c\n\"".toList ⟨2, 15⟩ =
      [⟨.punctuation, ['\x7b']⟩] ++ name :: back := by
    decide +kernel
  exact ⟨hlex, lexRange_string _ _ hlex (by decide)⟩

/-- A backslash in front of a newline takes a string into the next line. -/
theorem newline_mem_of_escape :
    Language.json.lexRange "\"a\\\nb\"".toList ⟨0, 6⟩ = [⟨.string, "\"a\\\nb\"".toList⟩] ∧
      '\n' ∈ "\"a\\\nb\"".toList := by
  decide +kernel

end Json

end Highlight
