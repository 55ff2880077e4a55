import Highlight.Proofs.Dispatch
import Highlight.Proofs.TemplateGrammar
import Highlight.StringLiteral

/-!
# String literals are taken whole

Where a quoted text ends is found by jumps from one character of interest to the next. Read one
character at a time it is simpler: plain characters and escapes, and then the quote. So the bodies
of literals are given as grammars of such units, a scan passes over one unit after the other, and
behind the last one it meets the closing quote.

The forms differ in what a quote inside the body may be. Between single quotes there is none that is
not escaped. In a text in triple quotes there may be one wherever it does not make three with what
is behind it, and in a raw text in hashes wherever fewer hashes follow.

What is in front of the opening quote is an affix. It is looked for as a run of letters, and a word
may begin with the very same letters, so a word is told from a literal by what comes behind all of
it.
-/

namespace Highlight

namespace Quoted

variable {quote c : Char} {escapes multiline : Bool} {body s : List Char} {n : Nat}

/-- The text between two quotes. -/
inductive Body (quote : Char) (escapes multiline : Bool) : List Char → Prop where
  | nil : Body quote escapes multiline []
  | plain {c : Char} {body : List Char} (hquote : c ≠ quote) (hescape : escapes = true → c ≠ '\x5c')
      (hline : multiline = false → c ≠ '\n') (more : Body quote escapes multiline body) :
      Body quote escapes multiline (c :: body)
  | escape {c : Char} {body : List Char} (hescapes : escapes = true)
      (more : Body quote escapes multiline body) :
      Body quote escapes multiline ('\x5c' :: c :: body)

theorem rest_quote (quote : Char) (escapes multiline : Bool) (s : List Char) :
    rest quote escapes multiline (quote :: s) = s := by
  rw [rest_cons_of_looksAt (by simp [looksAt]), if_pos rfl]

theorem rest_escape (hquote : quote ≠ '\x5c') (c : Char) (s : List Char) :
    rest quote true multiline ('\x5c' :: c :: s) = rest quote true multiline s := by
  rw [rest_cons_of_looksAt (by simp [looksAt]), if_neg hquote.symm, if_neg (by decide)]
  rfl

/-- A scan passes over units. -/
theorem Body.rest_append (hquote : quote ≠ '\x5c') (h : Body quote escapes multiline body)
    (s : List Char) :
    rest quote escapes multiline (body ++ s) = rest quote escapes multiline s := by
  induction h with
  | nil => rfl
  | @plain c body hne hescape hline more ih =>
      have hplain := looksAt_eq_false_iff.2 ⟨hne, hescape, hline⟩
      rw [List.cons_append, rest_cons_of_plain hplain, ih]
  | escape hescapes more ih =>
      subst hescapes
      rw [List.cons_append, List.cons_append, rest_escape hquote, ih]

/-- A quoted text is left behind its closing quote. -/
theorem rest_append (hquote : quote ≠ '\x5c') (h : Body quote escapes multiline body)
    (s : List Char) : rest quote escapes multiline (body ++ quote :: s) = s := by
  rw [h.rest_append hquote, rest_quote]

theorem Body.of_notMem (h : quote ∉ body) : Body quote false true body := by
  induction body with
  | nil => exact .nil
  | cons c body ih =>
      rw [List.mem_cons, not_or] at h
      exact .plain (Ne.symm h.1) nofun nofun (ih h.2)

/-- The text between two times three quotes. -/
inductive TripleBody (quote : Char) : List Char → Prop where
  | nil : TripleBody quote []
  | plain {c : Char} {body : List Char} (hquote : c ≠ quote) (hescape : c ≠ '\x5c')
      (more : TripleBody quote body) : TripleBody quote (c :: body)
  | escape {c : Char} {body : List Char} (more : TripleBody quote body) :
      TripleBody quote ('\x5c' :: c :: body)
  /-- A quote, where it is not the first of three. -/
  | quote {body : List Char} (hthree : ¬ [quote, quote] <+: body ++ [quote, quote, quote])
      (more : TripleBody quote body) : TripleBody quote (quote :: body)

theorem tripleRest_quote (quote : Char) (s : List Char) :
    tripleRest quote (quote :: s) =
      ([quote, quote].isPrefixOf? s).getD (tripleRest quote s) := by
  rw [tripleRest_cons_of_looksAt (by simp [looksAt]), if_pos rfl]

theorem tripleRest_escape (hquote : quote ≠ '\x5c') (c : Char) (s : List Char) :
    tripleRest quote ('\x5c' :: c :: s) = tripleRest quote s := by
  rw [tripleRest_cons_of_looksAt (by simp [looksAt]), if_neg hquote.symm]
  rfl

theorem tripleRest_append (hquote : quote ≠ '\x5c') (h : TripleBody quote body) (s : List Char) :
    tripleRest quote (body ++ quote :: quote :: quote :: s) = s := by
  induction h with
  | nil =>
      have hclosing : [quote, quote].isPrefixOf? (quote :: quote :: s) = some s :=
        isPrefixOf?_append [quote, quote] s
      rw [List.nil_append, tripleRest_quote, hclosing, Option.getD_some]
  | @plain c body hne hescape more ih =>
      have hplain : looksAt quote true true c = false :=
        looksAt_eq_false_iff.2 ⟨hne, fun _ => hescape, fun h => nomatch h⟩
      rw [List.cons_append, tripleRest_cons_of_plain hplain, ih]
  | escape more ih =>
      rw [List.cons_append, List.cons_append, tripleRest_escape hquote, ih]
  | @quote body hthree more ih =>
      have hnone : [quote, quote].isPrefixOf? (body ++ quote :: quote :: quote :: s) = none := by
        -- Two quotes are too short to reach behind the closing ones.
        refine isPrefixOf?_eq_none fun hprefix => hthree ?_
        refine List.prefix_of_prefix_length_le hprefix ⟨s, ?_⟩ (by simp)
        rw [List.append_assoc]
        rfl
      rw [List.cons_append, tripleRest_quote, hnone, Option.getD_none, ih]

/-- The closing delimiter of a raw text in a number of hashes. -/
def closing (n : Nat) : List Char :=
  '\x22' :: List.replicate n '#'

/-- No closing delimiter begins inside a body that has none and ends behind it: it would have the
quote of the delimiter behind the body among its hashes. -/
theorem replicate_prefix_of_append (h : List.replicate n '#' <+: body ++ '\x22' :: s) :
    List.replicate n '#' <+: body := by
  induction n generalizing body with
  | zero => exact List.nil_prefix
  | succ n ih =>
      rw [List.replicate_succ] at h ⊢
      cases body with
      | nil => exact absurd (List.cons_prefix_cons.1 h).1 (by decide)
      | cons d body =>
          obtain ⟨rfl, hmore⟩ := List.cons_prefix_cons.1 h
          exact List.cons_prefix_cons.2 ⟨rfl, ih hmore⟩

theorem hashedRest_append (h : ¬ closing n <:+: body) (s : List Char) :
    hashedRest n (body ++ (closing n ++ s)) = s := by
  induction body with
  | nil =>
      rw [List.nil_append, closing, List.cons_append, hashedRest, if_pos rfl, isPrefixOf?_append]
  | cons c body ih =>
      have hmore := ih fun hin => h (hin.trans (List.suffix_cons c body).isInfix)
      rw [List.cons_append, hashedRest]
      by_cases hc : c = '\x22'
      · subst hc
        -- With enough hashes behind it this quote would be a closing delimiter in the body.
        have hnone : (List.replicate n '#').isPrefixOf? (body ++ (closing n ++ s)) = none := by
          refine isPrefixOf?_eq_none fun hprefix => h ?_
          have hbody := replicate_prefix_of_append hprefix
          exact (List.prefix_cons_inj _ |>.2 hbody).isInfix
        rw [if_pos rfl, hnone]
        exact hmore
      · rw [if_neg hc, hmore]

end Quoted

/-! ## Affixes

An affix is the run of letters in front of a quote, as long as the language has it. The run is taken
first and the quote is looked for behind it, so no part of a run is an affix, and a run of letters
with no quote behind it is part of a word. -/

namespace StringSyntax

variable {syn : StringSyntax} {p : Char → Bool} {c quote : Char} {affix body s rest w : List Char}
  {kind : Kind} {n : Nat} {r : Match}

/-- What may open a literal behind its affix. -/
def openers : AsciiSet := .chars "\x22\x27#"

structure Affix (syn : StringSyntax) (affix : List Char) : Prop where
  letters : ∀ c ∈ affix, c ∈ syn.affixes
  length : affix.length ≤ syn.maxAffix

/-- Whether an affix makes a text raw. -/
def isRaw (affix : List Char) : Bool :=
  affix.any fun c => c == 'r' || c == 'R'

theorem ne_nil_of_isRaw (h : isRaw affix = true) : affix ≠ [] := by
  rintro rfl
  cases h

theorem opens_hash (hhashed : syn.hashedRaw = true) (hraw : isRaw affix = true) :
    syn.opens affix '#' = true := by
  simp [opens, hhashed, ne_nil_of_isRaw hraw]

theorem openers_has_of_opens (h : syn.opens affix c = true) : openers.has c = true := by
  simp only [opens, Bool.or_eq_true, Bool.and_eq_true, beq_iff_eq] at h
  rcases h with (⟨-, rfl⟩ | ⟨-, rfl⟩) | ⟨⟨-, rfl⟩, -⟩ <;> decide

theorem openers_eq_false_of_letters (h : AsciiSet.letters.has c = true) : openers.has c = false :=
  openers.has_eq_false h (by decide)

theorem affix?_append (hletters : ∀ c ∈ syn.affixes, AsciiSet.letters.has c = true)
    (haffix : syn.Affix affix) (hopens : syn.opens affix c = true) (s : List Char) :
    syn.affix? (affix ++ c :: s) = some affix := by
  have hstop : Stops syn.affixes.contains ((c :: s).take (syn.maxAffix - affix.length)) := by
    intro d hd
    have hdc : d = c := by
      cases hn : syn.maxAffix - affix.length with
      | zero => simp [hn] at hd
      | succ n => simpa [hn] using hd.symm
    rw [hdc, Bool.eq_false_iff]
    intro hmem
    have hnot := openers_eq_false_of_letters (hletters c (List.contains_iff_mem.1 hmem))
    rw [openers_has_of_opens hopens] at hnot
    cases hnot
  have hrun : syn.letters (affix ++ c :: s) = affix := by
    rw [letters, List.take_append, List.take_of_length_le haffix.length]
    exact hstop.takeWhile_append fun d hd => List.contains_iff_mem.2 (haffix.letters d hd)
  rw [affix?, hrun, List.drop_left]
  exact if_pos hopens

/-- A run that the letters of affixes belong to, and nothing that opens a literal does, is no affix
if nothing opens a literal behind it. -/
theorem affix?_eq_none (hmem : ∀ c ∈ syn.affixes, p c = true)
    (hopeners : ∀ c ∈ openers.members, p c = false) (h : Stops openers.has (s.dropWhile p)) :
    syn.affix? s = none := by
  cases haffix : syn.affix? s with
  | none => rfl
  | some affix =>
      obtain ⟨c, t, rfl, hletters, hopens⟩ := affix?_eq_some haffix
      have hc := openers_has_of_opens hopens
      have hstop : Stops p (c :: t) := .cons (hopeners c (AsciiSet.mem_members.2 hc)) t
      rw [hstop.dropWhile_append fun d hd => hmem d (hletters d hd)] at h
      rw [h.head] at hc
      cases hc

theorem scanBacktick_cons_eq_none (h : c ≠ '\x60') : syn.scanBacktick (c :: s) = none := by
  rw [scanBacktick, if_neg]
  exact fun hc => h hc.2

theorem scan_affix_append (hletters : ∀ c ∈ syn.affixes, AsciiSet.letters.has c = true)
    (haffix : syn.Affix affix) (hopens : syn.opens affix c = true)
    (h : syn.scanQuoted affix (c :: s) = some r) : syn.scan (affix ++ c :: s) = some r := by
  have hbacktick : syn.scanBacktick (affix ++ c :: s) = none := by
    cases affix with
    | nil => exact scanBacktick_cons_eq_none (ne_of_class (openers_has_of_opens hopens) rfl)
    | cons d affix =>
        have hletter := hletters d (haffix.letters d List.mem_cons_self)
        exact scanBacktick_cons_eq_none (ne_of_class hletter rfl)
  have hscan : syn.scanAffixed (affix ++ c :: s) = some r := by
    rw [scanAffixed, affix?_append hletters haffix hopens]
    dsimp only
    rw [List.drop_left, h]
  rw [scan, Rule.firstOf_cons_of_none hbacktick,
    Rule.firstOf_cons_of_some hscan]

inductive Quote (syn : StringSyntax) : Char → Prop where
  | double (h : syn.double = true) : Quote syn '\x22'
  | single (h : syn.single = true) : Quote syn '\x27'

/-- The literals with a given affix. In a raw text of a language with hashes a backslash is an
ordinary character; elsewhere it escapes, behind an `r` too. -/
inductive Literal (syn : StringSyntax) : (affix : List Char) → Kind → List Char → Prop where
  | quoted {affix body : List Char} {quote : Char} (haffix : syn.Affix affix)
      (hquote : syn.Quote quote)
      (hbody : Quoted.Body quote (syn.escapes && !(isRaw affix && syn.hashedRaw)) syn.multiline
        body) :
      Literal syn affix syn.kind (affix ++ quote :: (body ++ [quote]))
  | tripled {affix body : List Char} {quote : Char} (htriple : syn.triple = true)
      (haffix : syn.Affix affix) (hquote : syn.Quote quote)
      (hbody : Quoted.TripleBody quote body) :
      Literal syn affix syn.tripleKind
        (affix ++ quote :: quote :: quote :: (body ++ [quote, quote, quote]))
  | hashed {affix body : List Char} {n : Nat} (hhashed : syn.hashedRaw = true)
      (haffix : syn.Affix affix) (hraw : isRaw affix = true)
      (hbody : ¬ Quoted.closing (n + 1) <:+: body) :
      Literal syn affix syn.kind
        (affix ++ (List.replicate (n + 1) '#' ++ '\x22' :: (body ++ Quoted.closing (n + 1))))
  | backtick {body : List Char} (hbacktick : syn.rawBacktick = true) (hbody : '\x60' ∉ body) :
      Literal syn [] syn.backtickKind ('\x60' :: (body ++ ['\x60']))

theorem Quote.opens (h : syn.Quote quote) (affix : List Char) :
    syn.opens affix quote = true := by
  cases h with
  | double h => simp [StringSyntax.opens, h]
  | single h => simp [StringSyntax.opens, h]

theorem Quote.ne_escape (h : syn.Quote quote) : quote ≠ '\x5c' := by
  cases h <;> decide

theorem Quote.ne_hash (h : syn.Quote quote) : quote ≠ '#' := by
  cases h <;> decide

theorem scanQuoted_quote (hquote : syn.Quote quote)
    (h : syn.triple = true → ¬ [quote, quote] <+: s) :
    syn.scanQuoted affix (quote :: s) =
      some ⟨syn.kind, Quoted.rest quote (syn.escapes && !(isRaw affix && syn.hashedRaw))
        syn.multiline s⟩ := by
  have hnone : (if syn.triple then [quote, quote].isPrefixOf? s else none) = none := by
    split
    · next ht => exact isPrefixOf?_eq_none (h ht)
    · rfl
  simp only [scanQuoted, if_neg hquote.ne_hash, hnone, isRaw]

theorem scanQuoted_triple (htriple : syn.triple = true) (hquote : syn.Quote quote)
    (s : List Char) :
    syn.scanQuoted affix (quote :: quote :: quote :: s) =
      some ⟨syn.tripleKind, Quoted.tripleRest quote s⟩ := by
  have hsome : [quote, quote].isPrefixOf? (quote :: quote :: s) = some s :=
    isPrefixOf?_append [quote, quote] s
  simp only [scanQuoted, if_neg hquote.ne_hash, if_pos htriple, hsome]

theorem scanHashed_append (n : Nat) (s : List Char) :
    syn.scanHashed (List.replicate n '#' ++ '\x22' :: s) =
      some ⟨syn.kind, Quoted.hashedRest n s⟩ := by
  have hstop : Stops (fun c => c == '#') ('\x22' :: s) := .cons (by decide) s
  have hhashes : (List.replicate n '#' ++ '\x22' :: s).takeWhile (fun c => c == '#') =
      List.replicate n '#' :=
    hstop.takeWhile_append fun c hc => beq_iff_eq.2 (List.eq_of_mem_replicate hc)
  have hdrop : (List.replicate n '#' ++ '\x22' :: s).drop n = '\x22' :: s :=
    List.drop_left' List.length_replicate
  simp only [scanHashed, hhashes, List.length_replicate, hdrop, if_true]

theorem scanQuoted_hashed (hraw : isRaw affix = true) (n : Nat) (s : List Char) :
    syn.scanQuoted affix ('#' :: (List.replicate n '#' ++ '\x22' :: s)) =
      some ⟨syn.kind, Quoted.hashedRest (n + 1) s⟩ := by
  have hscan := @scanHashed_append syn (n + 1) s
  rw [List.replicate_succ, List.cons_append] at hscan
  rw [isRaw] at hraw
  simp only [scanQuoted, if_true, hraw, hscan]

/-- Two quotes do not open a text in triple quotes, be they those of an empty text. -/
theorem not_prefix_of_body {escapes multiline : Bool} (hquote : quote ≠ '\x5c')
    (hbody : Quoted.Body quote escapes multiline body) (hrest : rest.head? ≠ some quote) :
    ¬ [quote, quote] <+: body ++ quote :: rest := by
  intro h
  cases hbody with
  | nil =>
      obtain ⟨t, ht⟩ := h
      obtain rfl := (List.cons.inj ht).2
      exact hrest rfl
  | plain hne => exact hne (List.cons_prefix_cons.1 h).1.symm
  | escape => exact hquote (List.cons_prefix_cons.1 h).1

theorem Literal.scan_append (hletters : ∀ c ∈ syn.affixes, AsciiSet.letters.has c = true)
    (h : syn.Literal affix kind w) (hrest : syn.triple = true → Stops openers.has rest) :
    syn.scan (w ++ rest) = some ⟨kind, rest⟩ := by
  cases h with
  | @quoted affix body quote haffix hquote hbody =>
      have hshort : syn.triple = true → ¬ [quote, quote] <+: body ++ quote :: rest := by
        intro ht
        refine not_prefix_of_body hquote.ne_escape hbody fun hhead => ?_
        have hc := hrest ht quote hhead
        rw [openers_has_of_opens (hquote.opens [])] at hc
        cases hc
      simp only [List.append_assoc, List.cons_append, List.nil_append]
      refine scan_affix_append hletters haffix (hquote.opens affix) ?_
      rw [scanQuoted_quote hquote hshort, Quoted.rest_append hquote.ne_escape hbody]
  | @tripled affix body quote htriple haffix hquote hbody =>
      simp only [List.append_assoc, List.cons_append, List.nil_append]
      refine scan_affix_append hletters haffix (hquote.opens affix) ?_
      rw [scanQuoted_triple htriple hquote, Quoted.tripleRest_append hquote.ne_escape hbody]
  | @hashed affix body n hhashed haffix hraw hbody =>
      have hscan := @scanQuoted_hashed syn affix hraw n (body ++ (Quoted.closing (n + 1) ++ rest))
      rw [Quoted.hashedRest_append hbody] at hscan
      simp only [List.append_assoc, List.cons_append, List.replicate_succ]
      exact scan_affix_append hletters haffix (opens_hash hhashed hraw) hscan
  | @backtick body hbacktick hbody =>
      have hscan : syn.scanBacktick ('\x60' :: (body ++ '\x60' :: rest)) =
          some ⟨syn.backtickKind, rest⟩ := by
        rw [scanBacktick, if_pos ⟨hbacktick, rfl⟩,
          Quoted.rest_append (by decide) (Quoted.Body.of_notMem hbody)]
      simp only [List.append_assoc, List.cons_append, List.nil_append]
      exact Rule.firstOf_cons_of_some hscan

theorem Literal.affix?_append (hletters : ∀ c ∈ syn.affixes, AsciiSet.letters.has c = true)
    (hbacktick : syn.rawBacktick = false) (h : syn.Literal affix kind w) (rest : List Char) :
    syn.affix? (w ++ rest) = some affix := by
  cases h with
  | quoted haffix hquote =>
      rw [List.append_assoc]
      exact StringSyntax.affix?_append hletters haffix (hquote.opens affix) _
  | tripled htriple haffix hquote =>
      rw [List.append_assoc]
      exact StringSyntax.affix?_append hletters haffix (hquote.opens affix) _
  | @hashed affix body n hhashed haffix hraw hbody =>
      rw [List.append_assoc, List.replicate_succ]
      exact StringSyntax.affix?_append hletters haffix (opens_hash hhashed hraw) _
  | backtick h =>
      rw [hbacktick] at h
      cases h

/-- The characters that a literal may begin with. -/
def openings (syn : StringSyntax) : List Char :=
  syn.affixes ++ (['\x22'].filter fun _ => syn.double) ++ (['\x27'].filter fun _ => syn.single) ++
    (['\x60'].filter fun _ => syn.rawBacktick)

theorem mem_openings : c ∈ syn.openings ↔ c ∈ syn.affixes ∨ (c = '\x22' ∧ syn.double = true) ∨
    (c = '\x27' ∧ syn.single = true) ∨ (c = '\x60' ∧ syn.rawBacktick = true) := by
  simp only [openings, List.mem_append, List.mem_filter, List.mem_singleton, or_assoc]

theorem Quote.mem_openings (h : syn.Quote quote) : quote ∈ syn.openings := by
  rw [StringSyntax.mem_openings]
  cases h with
  | double h => exact .inr (.inl ⟨rfl, h⟩)
  | single h => exact .inr (.inr (.inl ⟨rfl, h⟩))

theorem Affix.exists_opening (haffix : syn.Affix affix) (hc : c ∈ syn.openings) (s : List Char) :
    ∃ d t, affix ++ c :: s = d :: t ∧ d ∈ syn.openings := by
  cases affix with
  | nil => exact ⟨c, s, rfl, hc⟩
  | cons d affix =>
      exact ⟨d, affix ++ c :: s, rfl, mem_openings.2 (.inl (haffix.letters d List.mem_cons_self))⟩

theorem Literal.head (h : syn.Literal affix kind w) : ∃ c t, w = c :: t ∧ c ∈ syn.openings := by
  cases h with
  | quoted haffix hquote => exact haffix.exists_opening hquote.mem_openings _
  | tripled htriple haffix hquote => exact haffix.exists_opening hquote.mem_openings _
  | hashed hhashed haffix hraw =>
      obtain ⟨c, affix, rfl⟩ := List.exists_cons_of_ne_nil (ne_nil_of_isRaw hraw)
      exact ⟨c, _, rfl, mem_openings.2 (.inl (haffix.letters c List.mem_cons_self))⟩
  | backtick h => exact ⟨_, _, rfl, mem_openings.2 (.inr (.inr (.inr ⟨rfl, h⟩)))⟩

theorem Literal.visible (hspace : ∀ c ∈ syn.openings, AsciiSet.whitespace.has c = false)
    (h : syn.Literal affix kind w) : Visible w := by
  obtain ⟨c, s, rfl, hc⟩ := h.head
  exact ⟨c, s, rfl, hspace c hc⟩

theorem affix?_cons_eq_none (h : c ∉ syn.openings) : syn.affix? (c :: s) = none := by
  rw [mem_openings, not_or, not_or, not_or] at h
  obtain ⟨hmem, hdouble, hsingle, -⟩ := h
  have hletters : syn.letters (c :: s) = [] := by
    rw [letters]
    cases syn.maxAffix with
    | zero => rfl
    | succ n => exact List.takeWhile_cons_of_neg (by rw [List.contains_iff_mem]; exact hmem)
  have hopens : ¬ syn.opens [] c = true := by
    simp only [opens, Bool.or_eq_true, Bool.and_eq_true, beq_iff_eq]
    rintro ((⟨hd, hc⟩ | ⟨hs, hc⟩) | ⟨-, hempty⟩)
    · exact hdouble ⟨hc, hd⟩
    · exact hsingle ⟨hc, hs⟩
    · cases hempty
  rw [affix?, hletters]
  exact if_neg hopens

theorem scan_cons_eq_none (h : c ∉ syn.openings) : syn.scan (c :: s) = none := by
  have hbacktick : syn.scanBacktick (c :: s) = none := by
    rw [scanBacktick, if_neg]
    rintro ⟨hraw, rfl⟩
    exact h (mem_openings.2 (.inr (.inr (.inr ⟨rfl, hraw⟩))))
  have haffix : syn.scanAffixed (c :: s) = none := by
    rw [scanAffixed, affix?_cons_eq_none h]
  rw [scan, Rule.firstOf_cons_of_none hbacktick, Rule.firstOf_cons_of_none haffix,
    Rule.firstOf_nil]

end StringSyntax

/-- What may stand between single quotes for a character: one that stands for itself, or an escape,
which may be longer than its first two characters. -/
inductive CharacterBody : List Char → Prop where
  | plain {c : Char} (hquote : c ≠ '\x27') (hescape : c ≠ '\x5c') (hline : c ≠ '\n') :
      CharacterBody [c]
  | escape {c : Char} {body : List Char} (more : Quoted.Body '\x27' true false body) :
      CharacterBody ('\x5c' :: c :: body)

theorem scanCharacter_append {body : List Char} (h : CharacterBody body) (rest : List Char) :
    scanCharacter (body ++ '\x27' :: rest) = ⟨.stringChar, rest⟩ := by
  have hbody : Quoted.Body '\x27' true false body := by
    cases h with
    | plain hquote hescape hline => exact .plain hquote (fun _ => hescape) (fun _ => hline) .nil
    | escape more => exact .escape rfl more
  rw [scanCharacter, Quoted.rest_append (by decide) hbody]

end Highlight
