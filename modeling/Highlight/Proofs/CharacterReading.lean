import Highlight.Offset
import Highlight.Proofs.Boundary
import Highlight.Proofs.LiteralText
import Highlight.Proofs.StringLiterals

/-!
# Reading one character at a time

Where a quoted text ends can be found without a jump and without a look ahead: read the characters
in order, and remember whether the next one is taken as it is, since a backslash is in front of it,
and how many quotes in a row were read last. The reader counts bytes as it goes, and when it stops
it tells the offset it has come to. For literal text it looks at one character more, to tell a brace
that opens a field from one that is doubled.

A scan that jumps to the next character of interest gives the same answer. What it has to say about
one character is an equation, `rest_cons` and its like, in which no jump is left. By it the quotes
that a reader remembers are quotes that the scan has still in front of it: they may be put back, and
either they close the text together with what comes next, or nothing closes it there and they are
passed over once more.
-/

namespace Highlight

namespace Offset

variable {offset stop : Nat} {c : Char} {text s rest : List Char}

/-- Whether the rest of a text is at one offset, if the text is at another. -/
def RestAt (offset : Nat) (s rest : List Char) (stop : Nat) : Prop :=
  ∃ read, s = read ++ rest ∧ stop = offset + byteSize read

theorem restAt_self (offset : Nat) (s : List Char) : RestAt offset s s offset :=
  ⟨[], rfl, rfl⟩

theorem RestAt.cons (h : RestAt (offset + c.utf8Size) s rest stop) :
    RestAt offset (c :: s) rest stop := by
  obtain ⟨read, rfl, rfl⟩ := h
  exact ⟨c :: read, rfl, by rw [byteSize_cons, Nat.add_assoc]⟩

theorem RestAt.ofRest_eq (h : RestAt offset (dropBytes offset text) rest stop)
    (hbound : IsBoundary text offset) : ofRest text rest = stop := by
  obtain ⟨front, back, rfl, rfl⟩ := isBoundary_iff_append.1 hbound
  rw [dropBytes_byteSize_append] at h
  obtain ⟨read, rfl, rfl⟩ := h
  rw [ofRest, byteSize_append, byteSize_append]
  omega

end Offset

namespace Quoted

open Offset

variable {quote c : Char} {escapes multiline : Bool} {s : List Char} {run : Nat}

theorem rest_cons (quote : Char) (escapes multiline : Bool) (c : Char) (s : List Char) :
    rest quote escapes multiline (c :: s) =
      if c = quote then s
      else if c = '\n' ∧ multiline = false then c :: s
      else if c = '\x5c' ∧ escapes = true then rest quote escapes multiline (s.drop 1)
      else rest quote escapes multiline s := by
  cases hlooks : looksAt quote escapes multiline c with
  | true =>
      rw [rest_cons_of_looksAt hlooks]
      by_cases hquote : c = quote
      · rw [if_pos hquote, if_pos hquote]
      · rw [if_neg hquote, if_neg hquote]
        simp only [looksAt, Bool.or_eq_true, beq_iff_eq, Bool.and_eq_true, Bool.not_eq_true']
          at hlooks
        rcases hlooks with (heq | ⟨hescapes, rfl⟩) | ⟨hline, rfl⟩
        · exact absurd heq hquote
        · rw [if_neg (by decide), if_neg (fun h => absurd h.1 (by decide)),
            if_pos ⟨rfl, hescapes⟩]
        · rw [if_pos rfl, if_pos ⟨rfl, hline⟩]
  | false =>
      obtain ⟨hquote, hescape, hline⟩ := looksAt_eq_false_iff.1 hlooks
      rw [rest_cons_of_plain hlooks, if_neg hquote, if_neg fun h => hline h.2 h.1,
        if_neg fun h => hescape h.2 h.1]

/-- The offset behind a quoted text that is read from an offset on. If `taken`, the next character
is taken as it is. -/
def readEnd (quote : Char) (escapes multiline : Bool) :
    (taken : Bool) → (offset : Nat) → List Char → Nat
  | _, offset, [] => offset
  | true, offset, c :: s => readEnd quote escapes multiline false (offset + c.utf8Size) s
  | false, offset, c :: s =>
    if c = quote then offset + c.utf8Size
    else if c = '\n' ∧ multiline = false then offset
    else readEnd quote escapes multiline (escapes && c == '\x5c') (offset + c.utf8Size) s

theorem restAt_readEnd (quote : Char) (escapes multiline taken : Bool) (offset : Nat)
    (s : List Char) :
    RestAt offset s (rest quote escapes multiline (if taken then s.drop 1 else s))
      (readEnd quote escapes multiline taken offset s) := by
  induction s generalizing taken offset with
  | nil =>
      rw [readEnd, List.drop_nil, ite_self, rest_nil]
      exact restAt_self offset []
  | cons c s ih =>
      cases taken with
      | true => exact (ih false _).cons
      | false =>
          rw [if_neg Bool.false_ne_true, rest_cons, readEnd]
          by_cases hquote : c = quote
          · rw [if_pos hquote, if_pos hquote]
            exact (restAt_self _ s).cons
          · rw [if_neg hquote, if_neg hquote]
            by_cases hline : c = '\n' ∧ multiline = false
            · rw [if_pos hline, if_pos hline]
              exact restAt_self offset (c :: s)
            · rw [if_neg hline, if_neg hline]
              by_cases hescape : c = '\x5c' ∧ escapes = true
              · obtain ⟨rfl, rfl⟩ := hescape
                rw [if_pos ⟨rfl, rfl⟩]
                exact (ih true _).cons
              · have hplain : (escapes && c == '\x5c') = false := by
                  rw [Bool.and_eq_false_imp]
                  exact fun h => beq_eq_false_iff_ne.2 fun hc => hescape ⟨hc, h⟩
                rw [if_neg hescape, hplain]
                exact (ih false _).cons

theorem tripleRest_cons (quote c : Char) (s : List Char) :
    tripleRest quote (c :: s) =
      if c = quote then ([quote, quote].isPrefixOf? s).getD (tripleRest quote s)
      else if c = '\x5c' then tripleRest quote (s.drop 1)
      else tripleRest quote s := by
  by_cases hquote : c = quote
  · subst hquote
    rw [if_pos rfl, tripleRest_quote]
  · rw [if_neg hquote]
    by_cases hescape : c = '\x5c'
    · subst hescape
      rw [if_pos rfl]
      rw [tripleRest_cons_of_looksAt (by simp [looksAt]), if_neg hquote]
    · have hplain : looksAt quote true true c = false :=
        looksAt_eq_false_iff.2
          ⟨hquote, fun _ => hescape, fun h => absurd h (by decide)⟩
      rw [if_neg hescape, tripleRest_cons_of_plain hplain]

/-- One or two quotes close nothing if no other comes behind them. -/
theorem tripleRest_replicate_append (hrun : run ≤ 2) (hs : s.head? ≠ some quote) :
    tripleRest quote (List.replicate run quote ++ s) = tripleRest quote s := by
  have hfirst (t : List Char) : ¬ quote :: t <+: s := by
    rintro ⟨u, rfl⟩
    exact hs rfl
  have hone : tripleRest quote (quote :: s) = tripleRest quote s := by
    rw [tripleRest_quote, isPrefixOf?_eq_none (hfirst _), Option.getD_none]
  match run with
  | 0 => rfl
  | 1 => exact hone
  | 2 =>
      have htwo : ¬ [quote, quote] <+: quote :: s := fun h =>
        hfirst [] (List.cons_prefix_cons.1 h).2
      show tripleRest quote (quote :: quote :: s) = tripleRest quote s
      rw [tripleRest_quote, isPrefixOf?_eq_none htwo, Option.getD_none, hone]

/-- The offset behind a text in triple quotes that is read from an offset on, with a number of
quotes in a row read last. If `taken`, the next character is taken as it is. -/
def readTripleEnd (quote : Char) : (taken : Bool) → (run offset : Nat) → List Char → Nat
  | _, _, offset, [] => offset
  | true, _, offset, c :: s => readTripleEnd quote false 0 (offset + c.utf8Size) s
  | false, run, offset, c :: s =>
    if c = quote then
      if run = 2 then offset + c.utf8Size
      else readTripleEnd quote false (run + 1) (offset + c.utf8Size) s
    else readTripleEnd quote (c == '\x5c') 0 (offset + c.utf8Size) s

theorem restAt_readTripleEnd (quote : Char) (taken : Bool) (run offset : Nat) (s : List Char)
    (hrun : run ≤ 2) (htaken : taken = true → run = 0) :
    RestAt offset s
      (tripleRest quote (List.replicate run quote ++ if taken then s.drop 1 else s))
      (readTripleEnd quote taken run offset s) := by
  induction s generalizing taken run offset with
  | nil =>
      have hnil : ([] : List Char).head? ≠ some quote := nofun
      rw [readTripleEnd, List.drop_nil, ite_self, tripleRest_replicate_append hrun hnil,
        tripleRest_nil]
      exact restAt_self offset []
  | cons c s ih =>
      cases taken with
      | true =>
          rw [htaken rfl]
          exact (ih false 0 _ (Nat.zero_le 2) nofun).cons
      | false =>
          rw [if_neg Bool.false_ne_true, readTripleEnd]
          by_cases hquote : c = quote
          · subst hquote
            rw [if_pos rfl]
            by_cases htwo : run = 2
            · subst htwo
              have hclosed : tripleRest c (c :: c :: c :: s) = s := by
                rw [tripleRest_quote]
                exact congrArg (Option.getD · _) (isPrefixOf?_append [c, c] s)
              rw [if_pos rfl]
              show RestAt offset (c :: s) (tripleRest c (c :: c :: c :: s)) _
              rw [hclosed]
              exact (restAt_self _ s).cons
            · have hmore := ih false (run + 1) (offset + c.utf8Size) (by omega) nofun
              rw [if_neg Bool.false_ne_true, List.replicate_succ', List.append_assoc] at hmore
              rw [if_neg htwo]
              exact hmore.cons
          · have hs : (c :: s).head? ≠ some quote := fun h => hquote (Option.some.inj h)
            rw [if_neg hquote, tripleRest_replicate_append hrun hs, tripleRest_cons,
              if_neg hquote]
            by_cases hescape : c = '\x5c'
            · subst hescape
              rw [if_pos rfl]
              exact (ih true 0 _ (Nat.zero_le 2) fun _ => rfl).cons
            · rw [if_neg hescape, beq_eq_false_iff_ne.2 hescape]
              exact (ih false 0 _ (Nat.zero_le 2) nofun).cons

end Quoted

/-- From between two characters of a text, a scan for the end of a quoted text, or of one in triple
quotes, comes to where a reader comes to. -/
theorem Offset.quoted_eq_readEnd {text : List Char} {offset : Nat}
    (h : IsBoundary text offset) (quote : Char) :
    (∀ escapes multiline, quoted quote escapes multiline text offset =
      Quoted.readEnd quote escapes multiline false offset (dropBytes offset text)) ∧
    tripleQuoted quote text offset =
      Quoted.readTripleEnd quote false 0 offset (dropBytes offset text) := by
  constructor
  · intro escapes multiline
    rw [quoted, seek_of_isBoundary _ h]
    exact (Quoted.restAt_readEnd quote escapes multiline false offset _).ofRest_eq h
  · rw [tripleQuoted, seek_of_isBoundary _ h]
    exact (Quoted.restAt_readTripleEnd quote false 0 offset _ (Nat.zero_le 2) nofun).ofRest_eq h

theorem Offset.quoted_behind_escape :
    let text := ['\u00e9', 'a', '\x5c', '\u00e9', '\'', '\'', '\'', '\'']
    IsBoundary text 2 ∧ quoted '\'' true false text 2 = 7 ∧ tripleQuoted '\'' text 2 = 9 := by
  intro text
  have hbound : IsBoundary text 2 := isBoundary_append ['\u00e9'] _
  obtain ⟨hquoted, htriple⟩ := quoted_eq_readEnd hbound '\''
  exact ⟨hbound, (hquoted true false).trans (by decide), htriple.trans (by decide)⟩

/-! ## Literal text

Literal text gives a reader more to look at than quoted text does. A brace may be doubled, and
behind a dollar sign only a brace opens a field, so the reader looks one character ahead. For the
rest the argument is that of triple quotes, with the quotes that were read last put back. -/

namespace TemplateSyntax

open Offset

variable {style : TemplateSyntax} {c : Char} {s : List Char} {run : Nat}

/-- Whether the character behind one is text whatever it is: it is escaped, or it doubles a
brace. -/
def takesNext (style : TemplateSyntax) (c : Char) : Bool :=
  c == '\x5c' || (!style.dollar && c == '\x7b')

/-- Whether a field opens with a character, given what is behind it. -/
def OpensField (style : TemplateSyntax) (c : Char) (s : List Char) : Prop :=
  c = style.opener ∧ (s.head? = some '\x7b' ↔ style.dollar = true)

instance (style : TemplateSyntax) (c : Char) (s : List Char) : Decidable (style.OpensField c s) :=
  inferInstanceAs (Decidable (_ ∧ _))

/-- Elsewhere than at a quote a scan stops in front of a character, or it passes over it. -/
theorem text_cons_of_ne (h : style.Quoted) (hquote : c ≠ style.quote) (s : List Char) :
    style.text (c :: s) =
      if c = '\n' ∧ style.singleLine = true then (.unterminated, c :: s)
      else if style.OpensField c s then (.field, c :: s)
      else style.text (if style.takesNext c then s.drop 1 else s) := by
  by_cases hline : c = '\n' ∧ style.singleLine = true
  · have hstop : style.stops c = true := by simp [stops, hline]
    rw [if_pos hline, text_cons_of_stops hstop]
    dsimp only [textScan]
    rw [if_pos hline.symm]
    rfl
  · rw [if_neg hline]
    by_cases hopener : c = style.opener
    · subst hopener
      rw [text_opener h]
      cases hdollar : style.dollar with
      | true =>
          have hpass : style.takesNext style.opener = false := by
            rw [takesNext, opener_of_dollar hdollar, hdollar]
            rfl
          rw [if_pos rfl, hpass, if_neg Bool.false_ne_true]
          simp only [OpensField, hdollar, true_and, iff_true]
      | false =>
          have htake : style.takesNext style.opener = true := by
            rw [takesNext, opener_of_not_dollar hdollar, hdollar]
            rfl
          rw [if_neg Bool.false_ne_true, htake, if_pos rfl]
          simp only [OpensField, hdollar, true_and, Bool.false_eq_true, iff_false]
          split <;> rfl
    · have hfield : ¬ style.OpensField c s := fun hopens => hopener hopens.1
      rw [if_neg hfield]
      by_cases hescape : c = '\x5c'
      · subst hescape
        have htake : style.takesNext '\x5c' = true := rfl
        rw [htake, if_pos rfl]
        exact text_escape style s
      · have hpass : style.takesNext c = false := by
          rw [takesNext, Bool.or_eq_false_iff, beq_eq_false_iff_ne, Bool.and_eq_false_imp,
            Bool.not_eq_true']
          refine ⟨hescape, fun hdollar => beq_eq_false_iff_ne.2 ?_⟩
          rw [← opener_of_not_dollar hdollar]
          exact hopener
        have hstop : style.stops c = false := by
          rw [stops, Bool.or_eq_false_iff, Bool.or_eq_false_iff, Bool.or_eq_false_iff,
            Bool.and_eq_false_imp]
          refine ⟨⟨⟨beq_eq_false_iff_ne.2 hquote, beq_eq_false_iff_ne.2 hescape⟩,
            beq_eq_false_iff_ne.2 hopener⟩, fun hsingle => beq_eq_false_iff_ne.2 ?_⟩
          exact fun hc => hline ⟨hc, hsingle⟩
        rw [hpass, if_neg Bool.false_ne_true, text_cons_of_plain hstop]

theorem quotes_eq_replicate (style : TemplateSyntax) :
    style.quotes = List.replicate style.quotes.length style.quote := by
  rw [quotes]
  split <;> rfl

/-- Fewer quotes than it takes close nothing if no other comes behind them. -/
theorem text_replicate_append (h : style.Quoted) (hrun : run < style.quotes.length)
    (hs : s.head? ≠ some style.quote) :
    style.text (List.replicate run style.quote ++ s) = style.text s := by
  have hfirst (t : List Char) : ¬ style.quote :: t <+: s := by
    rintro ⟨u, rfl⟩
    exact hs rfl
  have hpass {t : List Char} (htriple : style.triple = true)
      (hnot : ¬ [style.quote, style.quote] <+: t) :
      style.text (style.quote :: t) = style.text t := by
    rw [text_quote h, if_pos htriple, isPrefixOf?_eq_none hnot]
  cases htriple : style.triple with
  | false =>
      rw [quotes, htriple, if_neg Bool.false_ne_true, List.length_singleton, Nat.lt_one_iff] at hrun
      rw [hrun]
      rfl
  | true =>
      rw [quotes, htriple, if_pos rfl] at hrun
      have hcases : run = 0 ∨ run = 1 ∨ run = 2 := by
        simp only [List.length_cons, List.length_nil] at hrun
        omega
      rcases hcases with rfl | rfl | rfl
      · rfl
      · exact hpass htriple (hfirst _)
      · have htwo : ¬ [style.quote, style.quote] <+: style.quote :: s := fun hprefix =>
          hfirst [] (List.cons_prefix_cons.1 hprefix).2
        exact (hpass htriple htwo).trans (hpass htriple (hfirst _))

/-- Why a run of literal text ends that is read from an offset on, and the offset it ends at, with a
number of quotes in a row read last. If `taken`, the next character is taken as it is. -/
def readText (style : TemplateSyntax) :
    (taken : Bool) → (run offset : Nat) → List Char → TextEnd × Nat
  | _, _, offset, [] => (.unterminated, offset)
  | true, _, offset, c :: s => style.readText false 0 (offset + c.utf8Size) s
  | false, run, offset, c :: s =>
    if c = style.quote then
      if run + 1 = style.quotes.length then (.closed, offset + c.utf8Size)
      else style.readText false (run + 1) (offset + c.utf8Size) s
    else if c = '\n' ∧ style.singleLine = true then (.unterminated, offset)
    else if style.OpensField c s then (.field, offset)
    else style.readText (style.takesNext c) 0 (offset + c.utf8Size) s

/-- Whether a scan and a reader end a run for the same reason and at the same place. -/
def Agrees (offset : Nat) (s : List Char) (scanned : TextEnd × List Char)
    (read : TextEnd × Nat) : Prop :=
  scanned.1 = read.1 ∧ RestAt offset s scanned.2 read.2

theorem Agrees.cons {offset : Nat} {scanned : TextEnd × List Char} {read : TextEnd × Nat}
    (h : Agrees (offset + c.utf8Size) s scanned read) : Agrees offset (c :: s) scanned read :=
  ⟨h.1, h.2.cons⟩

theorem agrees_readText (h : style.Quoted) (taken : Bool) (run offset : Nat) (s : List Char)
    (hrun : run < style.quotes.length) (htaken : taken = true → run = 0) :
    Agrees offset s
      (style.text (List.replicate run style.quote ++ if taken then s.drop 1 else s))
      (style.readText taken run offset s) := by
  have hpos := style.length_quotes_pos
  induction s generalizing taken run offset with
  | nil =>
      have hnil : ([] : List Char).head? ≠ some style.quote := nofun
      rw [readText, List.drop_nil, ite_self, text_replicate_append h hrun hnil, text_nil]
      exact ⟨rfl, restAt_self offset []⟩
  | cons c s ih =>
      cases taken with
      | true =>
          rw [htaken rfl]
          exact (ih false 0 _ hpos nofun).cons
      | false =>
          rw [if_neg Bool.false_ne_true, readText]
          by_cases hquote : c = style.quote
          · rw [if_pos hquote]
            by_cases hlast : run + 1 = style.quotes.length
            · have hsplit : List.replicate run style.quote ++ c :: s = style.quotes ++ s := by
                rw [quotes_eq_replicate, ← hlast, List.replicate_succ', List.append_assoc, hquote]
                rfl
              rw [if_pos hlast, hsplit, text_quotes h]
              exact ⟨rfl, (restAt_self _ s).cons⟩
            · have hmore := ih false (run + 1) (offset + c.utf8Size) (by omega) nofun
              rw [if_neg Bool.false_ne_true, List.replicate_succ', List.append_assoc, ← hquote]
                at hmore
              rw [if_neg hlast, ← hquote]
              exact hmore.cons
          · have hs : (c :: s).head? ≠ some style.quote := fun heq => hquote (Option.some.inj heq)
            rw [if_neg hquote, text_replicate_append h hrun hs, text_cons_of_ne h hquote]
            split
            · exact ⟨rfl, restAt_self offset (c :: s)⟩
            · split
              · exact ⟨rfl, restAt_self offset (c :: s)⟩
              · exact (ih (style.takesNext c) 0 _ hpos fun _ => rfl).cons

/-- From between two characters of a text, a scan of literal text ends for the reason and at the
offset that a reader comes to. -/
theorem text_eq_readText (hq : style.Quoted) {text : List Char} {offset : Nat}
    (h : IsBoundary text offset) :
    ((style.text (dropBytes offset text)).1, ofRest text (style.text (dropBytes offset text)).2) =
      style.readText false 0 offset (dropBytes offset text) := by
  obtain ⟨hend, hrest⟩ := agrees_readText hq false 0 offset (dropBytes offset text)
    style.length_quotes_pos nofun
  exact Prod.ext hend (hrest.ofRest_eq h)

end TemplateSyntax

end Highlight
