import Highlight.Proofs.BlockStarts
import Highlight.Proofs.Dispatch

/-!
# Rules and fenced blocks

A block may stand behind up to three spaces, which are a lexeme of their own then and leave it at
the start of a line. That they are depends on what comes behind them. Blanks are read with the text
that follows, up to a character that could begin something else, and a tilde is none of these. So
tildes behind spaces are text, and open no block.

A horizontal rule of hyphens or asterisks may begin like an item of a list, with a blank behind its
first marker, and items are looked for first. All other rules are found.

What closes a fenced block is looked for in another way than what opens one: at the very front of a
line. So a closing fence that is set in is passed over, and the block goes on. This makes no
difference if the line is the last one, since the block ends with the text at the latest.
-/

namespace Highlight.Markdown

variable {c d mark marker : Char} {k : Nat} {line more s t tail text : List Char}
  {lineStart : Bool} {p q : List Char → Bool}

/-- The spaces in front of a block as they are emitted. -/
def indentLexemes : Nat → List Lexeme
  | 0 => []
  | k + 1 => [⟨.whitespace, List.replicate (k + 1) ' '⟩]

/-- Whether a text goes on with the front of a line. -/
def AtLine (text s : List Char) : Prop :=
  lastLine (before text s) = []

instance (text s : List Char) : Decidable (AtLine text s) :=
  inferInstanceAs (Decidable (_ = _))

/-- At the front of a line the flag is set, whatever spaces there are in front of what can be
seen. -/
theorem AtLine.flag (h : AtLine text (List.replicate k ' ' ++ c :: s))
    (hvisits : lexer.Visits text lineStart (List.replicate k ' ' ++ c :: s)) (hc : c ≠ '\n') :
    lineStart = true := by
  have hindented : Indented (before text (List.replicate k ' ' ++ c :: s)) := by
    rw [Indented, h]
    exact List.forall_mem_nil _
  rcases lineStart_of_indented hvisits hindented with hstart | hnil | hline
  · exact hstart
  · exact absurd hnil (by simp)
  · cases k with
    | zero => exact absurd (Option.some.inj hline) hc
    | succ k => exact absurd (Option.some.inj hline) (by decide)

theorem forall_mem_spaces (k : Nat) :
    ∀ c ∈ List.replicate k ' ', blanks.has c = true ∧ textStop.has c = false := by
  intro c hc
  obtain rfl := List.eq_of_mem_replicate hc
  decide

/-- Text is read up to a character that could begin something else. -/
theorem stepText_append (hc : textStop.has c = false) (hmore : ∀ d ∈ more, textStop.has d = false)
    (htail : Stops (!textStop.has ·) tail) :
    stepText lineStart c (more ++ tail) =
      if (c :: more).all blanks.has then ⟨.whitespace, tail, lineStart⟩
      else ⟨.text, tail, false⟩ := by
  have htake := htail.takeWhile_append fun d hd => by rw [hmore d hd]; rfl
  rw [stepText, if_neg (by rw [hc]; decide)]
  dsimp only
  rw [htake, List.drop_left]

/-- One to three spaces begin nothing. -/
theorem step_spaces (hk : k ≤ 2) (hd : d ≠ ' ') :
    step true ' ' (List.replicate k ' ' ++ d :: t) =
      stepText true ' ' (List.replicate k ' ' ++ d :: t) := by
  have hcode : [' ', ' ', ' '].isPrefixOf (List.replicate k ' ' ++ d :: t) = false := by
    match k, hk with
    | 0, _ => simp [List.isPrefixOf, hd.symm]
    | 1, _ => simp [List.isPrefixOf, List.replicate_succ, hd.symm]
    | 2, _ => simp [List.isPrefixOf, List.replicate_succ, hd.symm]
  have hindented : scanIndented (' ' :: (List.replicate k ' ' ++ d :: t)) = none := by
    simp [scanIndented, hcode]
  refine step_of_none (by decide) ?_
  rw [rulesAt, if_pos rfl, blockRules, List.cons_append, Rule.firstOf_cons_of_none rfl,
    List.cons_append, Rule.firstOf_cons_of_none hindented]
  rfl

/-- Spaces in front of something that could begin a block are a lexeme of their own. -/
theorem reads_indent (hk : k ≤ 3) (hd : textStop.has d = true) :
    lexer.Reads true (List.replicate k ' ' ++ d :: t) (indentLexemes k) true (d :: t) := by
  cases k with
  | zero => exact .nil
  | succ k =>
      have hstop : Stops (!textStop.has ·) (d :: t) := .cons (by rw [hd]; rfl) t
      have hblank : (' ' :: List.replicate k ' ').all blanks.has = true := by
        rw [List.all_eq_true, ← List.replicate_succ]
        exact fun c hc => (forall_mem_spaces (k + 1) c hc).1
      have hspaces : step true ' ' (List.replicate k ' ' ++ d :: t) =
          stepText true ' ' (List.replicate k ' ' ++ d :: t) :=
        step_spaces (by omega) (ne_of_class hd (by decide))
      rw [stepText_append (by decide) (fun c hc => (forall_mem_spaces k c hc).2) hstop,
        if_pos hblank] at hspaces
      exact Lexer.Reads.of_step hspaces

/-- Tildes behind spaces are text, and so is what follows, up to something else that could begin a
construct. -/
theorem reads_tildes (hk : k ≤ 3) (hpos : 0 < k) (hmore : ∀ c ∈ more, textStop.has c = false)
    (htail : Stops (!textStop.has ·) tail) :
    lexer.Reads true (List.replicate k ' ' ++ (List.replicate 3 '~' ++ (more ++ tail)))
      [⟨.text, List.replicate k ' ' ++ (List.replicate 3 '~' ++ more)⟩] false tail := by
  obtain ⟨k, rfl⟩ := Nat.exists_eq_add_one.2 hpos
  have htext : ∀ c ∈ List.replicate k ' ' ++ (List.replicate 3 '~' ++ more),
      textStop.has c = false :=
    List.forall_mem_append.2 ⟨fun c hc => (forall_mem_spaces k c hc).2,
      List.forall_mem_append.2 ⟨by decide, hmore⟩⟩
  have hseen : ¬ (' ' :: (List.replicate k ' ' ++ (List.replicate 3 '~' ++ more))).all
      blanks.has = true := by
    rw [List.all_eq_true]
    intro hall
    exact absurd (hall '~' (by simp)) (by decide)
  have happ : List.replicate k ' ' ++ (List.replicate 3 '~' ++ more) ++ tail =
      List.replicate k ' ' ++ (List.replicate 3 '~' ++ (more ++ tail)) := by
    rw [List.append_assoc, List.append_assoc]
  have hspaces : step true ' ' (List.replicate k ' ' ++ (List.replicate 3 '~' ++ (more ++ tail))) =
      stepText true ' ' (List.replicate k ' ' ++ (List.replicate 3 '~' ++ (more ++ tail))) :=
    step_spaces (by omega) (by decide)
  rw [← happ, stepText_append (by decide) htext htail, if_neg hseen] at hspaces
  have hreads : lexer.Reads true
      (' ' :: (List.replicate k ' ' ++ (List.replicate 3 '~' ++ more) ++ tail)) _ false tail :=
    Lexer.Reads.of_step hspaces
  rw [happ] at hreads
  exact hreads

/-! ## Rules

A marker with a blank behind it begins an item of a list, and items are looked for before rules are.
So a rule is found, with all of its line, if it does not begin like an item, and of one that does
only the first marker is taken. -/

/-- Whether a line is three or more of one marker, with spaces and tabs among and behind them. -/
structure RuleLine (marker : Char) (line : List Char) : Prop where
  marker_mem : ruleMarkers.has marker = true
  head : line.head? = some marker
  forall_mem : ∀ c ∈ line, c = marker ∨ blanks.has c = true
  count : 3 ≤ line.count marker

theorem marker_cases (h : ruleMarkers.has marker = true) :
    marker = '-' ∨ marker = '*' ∨ marker = '_' := by
  have hcases : ∀ c ∈ ruleMarkers.members, c = '-' ∨ c = '*' ∨ c = '_' := by decide
  exact hcases marker (AsciiSet.mem_members.2 h)

/-- A rule is all that is left of its line. -/
theorem scanRule_append (h : RuleLine marker (marker :: line))
    (htail : ∀ c ∈ tail.head?, c = '\n') :
    scanRule (marker :: (line ++ tail)) = some ⟨.punctuation, tail⟩ := by
  have hstop : Stops (fun d => d == marker || blanks.has d) tail := by
    intro c hc
    obtain rfl := htail c hc
    have hne : '\n' ≠ marker := (ne_of_class h.marker_mem (by decide)).symm
    exact Bool.or_eq_false_iff.2 ⟨beq_false_of_ne hne, by decide⟩
  have hall : ∀ c ∈ line, (c == marker || blanks.has c) = true := by
    intro c hc
    rw [Bool.or_eq_true, beq_iff_eq]
    exact h.forall_mem c (List.mem_cons_of_mem marker hc)
  have hcount := h.count
  rw [List.count_cons_self] at hcount
  rw [scanRule, hstop.takeWhile_append hall, List.drop_left, if_pos]
  refine ⟨h.marker_mem, by omega, ?_⟩
  cases htail' : tail.head? with
  | none => rfl
  | some c =>
      obtain rfl := htail c htail'
      rfl

/-- What begins with the marker of a rule is looked at as an item of a list first. -/
theorem firstOf_marker (h : ruleMarkers.has marker = true) (s : List Char) :
    Rule.firstOf (rulesAt true) (marker :: s) =
      Rule.firstOf ([scanBullet, scanRule] ++ inlineRules) (marker :: s) := by
  rcases marker_cases h with rfl | rfl | rfl
  · rfl
  · rfl
  · rfl

theorem listMarkers_has_iff (h : ruleMarkers.has marker = true) :
    listMarkers.has marker = true ↔ marker ≠ '_' := by
  rcases marker_cases h with rfl | rfl | rfl
  · decide
  · decide
  · decide

/-- Whether a rule begins like an item of a list, with a marker of items and a blank behind it. -/
def BeginsItem (marker : Char) (line : List Char) : Prop :=
  marker ≠ '_' ∧ atBlank line.tail = true

instance (marker : Char) (line : List Char) : Decidable (BeginsItem marker line) :=
  inferInstanceAs (Decidable (_ ∧ _))

theorem RuleLine.atBlank_append (h : RuleLine marker (marker :: line)) (tail : List Char) :
    atBlank (line ++ tail) = atBlank line := by
  cases line with
  | nil =>
      have hcount := h.count
      rw [List.count_singleton_self] at hcount
      omega
  | cons d line => rfl

theorem firstOf_item (h : RuleLine marker (marker :: line))
    (hitem : BeginsItem marker (marker :: line)) (tail : List Char) :
    Rule.firstOf (rulesAt true) (marker :: (line ++ tail)) =
      some ⟨.punctuation, line ++ tail⟩ := by
  have hbullet : listMarkers.has marker = true ∧ atBlank (line ++ tail) = true :=
    ⟨(listMarkers_has_iff h.marker_mem).2 hitem.1, (h.atBlank_append tail).trans hitem.2⟩
  rw [firstOf_marker h.marker_mem, List.cons_append, Rule.firstOf_cons_of_some]
  exact if_pos hbullet

theorem firstOf_ruleLine (h : RuleLine marker (marker :: line))
    (hitem : ¬ BeginsItem marker (marker :: line)) (htail : ∀ c ∈ tail.head?, c = '\n') :
    Rule.firstOf (rulesAt true) (marker :: (line ++ tail)) = some ⟨.punctuation, tail⟩ := by
  have hbullet : ¬ (listMarkers.has marker = true ∧ atBlank (line ++ tail) = true) := by
    rw [listMarkers_has_iff h.marker_mem, h.atBlank_append tail]
    exact hitem
  have hnone : scanBullet (marker :: (line ++ tail)) = none := if_neg hbullet
  rw [firstOf_marker h.marker_mem, List.cons_append, Rule.firstOf_cons_of_none hnone,
    List.cons_append, Rule.firstOf_cons_of_some (scanRule_append h htail)]

/-- At the front of a line, behind up to three spaces, a rule is read as one lexeme, with all that
is left of its line. It is not if it begins like an item of a list: then its first marker is read
alone, and the rest of the line is no rule any more. -/
theorem reads_ruleLine
    (hvisits : lexer.Visits text lineStart (List.replicate k ' ' ++ (line ++ tail)))
    (hfront : AtLine text (List.replicate k ' ' ++ (line ++ tail))) (hk : k ≤ 3)
    (hrule : RuleLine marker line) (htail : ∀ c ∈ tail.head?, c = '\n') :
    let s := List.replicate k ' ' ++ (line ++ tail)
    (¬ BeginsItem marker line →
      lexer.Reads lineStart s (indentLexemes k ++ [⟨.punctuation, line⟩]) false tail) ∧
    (BeginsItem marker line →
      lexer.Reads lineStart s (indentLexemes k ++ [⟨.punctuation, [marker]⟩]) false
        (line.tail ++ tail)) := by
  intro s
  obtain ⟨line, rfl⟩ := List.head?_eq_some_iff.1 hrule.head
  have hne : marker ≠ '\n' := ne_of_class hrule.marker_mem (by decide)
  have hstop : textStop.has marker = true := by
    have hall : ∀ c ∈ ruleMarkers.members, textStop.has c = true := by decide
    exact hall marker (AsciiSet.mem_members.2 hrule.marker_mem)
  obtain rfl := hfront.flag hvisits hne
  have hindent : lexer.Reads true s _ true (marker :: (line ++ tail)) := reads_indent hk hstop
  constructor
  · intro hitem
    exact hindent.append (.of_step (step_of_found hne (firstOf_ruleLine hrule hitem htail)))
  · intro hitem
    have hmarker : lexer.Reads true (marker :: ([] ++ (line ++ tail))) [⟨.punctuation, [marker]⟩]
        false (line ++ tail) := .of_step (step_of_found hne (firstOf_item hrule hitem tail))
    exact hindent.append hmarker

/-- A rule of asterisks that stand apart, apart from the first two. -/
theorem reads_ruleLine_asterisks :
    let line := ['*', '*', ' ', '*']
    let tail := ['\n', 'y']
    let text := 'x' :: '\n' :: ' ' :: ' ' :: (line ++ tail)
    lexer.Visits text true (' ' :: ' ' :: (line ++ tail)) ∧
      AtLine text (' ' :: ' ' :: (line ++ tail)) ∧ RuleLine '*' line ∧ ¬ BeginsItem '*' line ∧
      lexer.Reads true (' ' :: ' ' :: (line ++ tail))
        [⟨.whitespace, [' ', ' ']⟩, ⟨.punctuation, line⟩] false tail := by
  intro line tail text
  have hword : lexer.Visits text false ('\n' :: ' ' :: ' ' :: (line ++ tail)) :=
    Lexer.Visits.start.of_step_eq (by decide) (by decide)
  have hvisits : lexer.Visits text true (' ' :: ' ' :: (line ++ tail)) := hword.step
  have hfront : AtLine text (' ' :: ' ' :: (line ++ tail)) := by decide
  have hrule : RuleLine '*' line := ⟨by decide, rfl, by decide, by decide⟩
  have hitem : ¬ BeginsItem '*' line := by decide
  have hreads := reads_ruleLine (k := 2) hvisits hfront (by decide) hrule (by decide)
  exact ⟨hvisits, hfront, hrule, hitem, hreads.1 hitem⟩

/-- Hyphens that stand apart are a rule. The first is read as the marker of an item, the others as
text. -/
theorem lex_spacedHyphens :
    let text := ['-', ' ', '-', ' ', '-']
    RuleLine '-' text ∧ lexer.lex text =
      [⟨.punctuation, ['-']⟩, ⟨.whitespace, [' ']⟩, ⟨.text, ['-']⟩, ⟨.whitespace, [' ']⟩,
        ⟨.text, ['-']⟩] :=
  ⟨⟨by decide, rfl, by decide, by decide⟩, by decide +kernel⟩

/-! ## Fenced blocks

Where a block ends is told by the lines behind its first one: at the end of the first of them that
is of some class, or with the text. The class that is looked for has only the lines with a fence at
the very front. How much that leaves out, where lines with a fence behind spaces should end a block
as well, is said of two classes of lines in general. -/

/-- What is behind each newline of a text: the lines after its first, each with all that follows. -/
def laterLines : List Char → List (List Char)
  | [] => []
  | c :: s => if c = '\n' then s :: laterLines s else laterLines s

/-- What is left from the newline on that ends the first of some lines of a class, and nothing if no
line is of the class. -/
def behindFirst (p : List Char → Bool) (lines : List (List Char)) : List Char :=
  match lines.find? p with
  | some line => fromNewline line
  | none => []

/-- Whether a text begins with a fence, behind up to three spaces. -/
def Fence (mark : Char) (s : List Char) : Prop :=
  ∃ k ≤ 3, List.replicate k ' ' ++ List.replicate 3 mark <+: s

instance (mark : Char) (s : List Char) : Decidable (Fence mark s) :=
  inferInstanceAs (Decidable (∃ k ≤ 3, _))

theorem behindFirst_cons_of_pos (h : p line = true) (lines : List (List Char)) :
    behindFirst p (line :: lines) = fromNewline line := by
  rw [behindFirst, List.find?_cons_of_pos h]

theorem behindFirst_cons_of_neg (h : ¬ p line = true) (lines : List (List Char)) :
    behindFirst p (line :: lines) = behindFirst p lines := by
  rw [behindFirst, behindFirst, List.find?_cons_of_neg h]

/-- A fenced block ends with the first later line that has the fence at its very front. -/
theorem behindFenced_eq (fence s : List Char) :
    behindFenced fence s = behindFirst fence.isPrefixOf (laterLines s) := by
  induction s with
  | nil => rfl
  | cons c s ih =>
      rw [behindFenced, laterLines]
      by_cases hc : c = '\n'
      · rw [if_pos hc]
        by_cases hfence : fence.isPrefixOf s = true
        · rw [if_pos ⟨hc, hfence⟩, behindFirst_cons_of_pos hfence]
        · rw [if_neg fun h => hfence h.2, behindFirst_cons_of_neg hfence, ih]
      · rw [if_neg hc, if_neg fun h => hc h.1, ih]

theorem behindFirst_cons_suffix {lines : List (List Char)} (h : behindFirst p lines <:+ s) :
    behindFirst p (s :: lines) <:+ s := by
  by_cases hs : p s = true
  · rw [behindFirst_cons_of_pos hs]
    exact fromNewline_suffix s
  · rw [behindFirst_cons_of_neg hs]
    exact h

theorem behindFirst_suffix (p : List Char → Bool) (s : List Char) :
    behindFirst p (laterLines s) <:+ s := by
  induction s with
  | nil => exact List.suffix_rfl
  | cons c s ih =>
      rw [laterLines]
      split
      · exact (behindFirst_cons_suffix ih).trans (List.suffix_cons c s)
      · exact ih.trans (List.suffix_cons c s)

theorem laterLines_fromNewline (s : List Char) : laterLines (fromNewline s) = laterLines s := by
  induction s with
  | nil => rfl
  | cons c s ih =>
      by_cases hc : c = '\n'
      · rw [fromNewline, List.dropWhile_cons_of_neg (by simp [hc])]
      · rw [fromNewline, List.dropWhile_cons_of_pos (by simp [hc]), laterLines, if_neg hc]
        exact ih

/-- The lines behind a line end where it does only if there are none. -/
theorem behindFirst_eq_fromNewline_iff (p : List Char → Bool) (s : List Char) :
    behindFirst p (laterLines s) = fromNewline s ↔ fromNewline s = [] := by
  have hstop : Stops (· != '\n') (fromNewline s) := Stops.dropWhile _ s
  rw [← laterLines_fromNewline]
  cases hrest : fromNewline s with
  | nil => simp [laterLines, behindFirst]
  | cons c t =>
      rw [hrest] at hstop
      obtain rfl : c = '\n' := by simpa using hstop.head
      have hlines : laterLines ('\n' :: t) = t :: laterLines t := if_pos rfl
      rw [hlines]
      refine ⟨fun h => ?_, nofun⟩
      -- Where a later line ends, the newline in front of it is gone.
      have hle := (behindFirst_cons_suffix (behindFirst_suffix p t)).length_le
      rw [h, List.length_cons] at hle
      omega

/-- Two classes of lines end at the same place only if the first line of the wider class is of the
narrower too, or is the last one. -/
theorem behindFirst_eq_iff (hpq : ∀ line, p line = true → q line = true) (s : List Char) :
    behindFirst p (laterLines s) = behindFirst q (laterLines s) ↔
      ∀ line ∈ (laterLines s).find? q, p line = true ∨ fromNewline line = [] := by
  induction s with
  | nil => simp [laterLines, behindFirst]
  | cons c s ih =>
      rw [laterLines]
      split
      · by_cases hq : q s = true
        · rw [List.find?_cons_of_pos hq, behindFirst_cons_of_pos hq]
          by_cases hp : p s = true
          · rw [behindFirst_cons_of_pos hp]
            simp [hp]
          · rw [behindFirst_cons_of_neg hp, behindFirst_eq_fromNewline_iff]
            simp [hp]
        · have hp : ¬ p s = true := fun hp => hq (hpq s hp)
          rw [List.find?_cons_of_neg hq, behindFirst_cons_of_neg hq, behindFirst_cons_of_neg hp, ih]
      · exact ih

theorem fence_of_isPrefixOf (h : (List.replicate 3 mark).isPrefixOf s = true) : Fence mark s :=
  ⟨0, by decide, List.isPrefixOf_iff_prefix.1 h⟩

theorem mark_ne_newline (hmark : mark = '\x60' ∨ mark = '~') : mark ≠ '\n' := by
  rintro rfl
  exact absurd hmark (by decide)

/-- What opens a fenced block is looked for first. -/
theorem step_fence (hmark : mark = '\x60' ∨ mark = '~') (s : List Char) :
    step true mark (mark :: mark :: s) =
      ⟨.string, behindFirst (List.replicate 3 mark).isPrefixOf (laterLines s), false⟩ := by
  have hne : mark ≠ '\n' := mark_ne_newline hmark
  have hprefix : [mark, mark].isPrefixOf (mark :: mark :: s) = true := by
    simp [List.isPrefixOf]
  have hfenced : scanFenced (mark :: mark :: mark :: s) =
      some ⟨.string, behindFenced (List.replicate 3 mark) s⟩ := by
    rw [scanFenced, if_pos ⟨hmark, hprefix⟩, behindFenced, if_neg fun h => hne h.1, behindFenced,
      if_neg fun h => hne h.1]
    rfl
  have hfound : Rule.firstOf (rulesAt true) (mark :: mark :: mark :: s) = _ :=
    Rule.firstOf_cons_of_some hfenced
  rw [← behindFenced_eq]
  exact step_of_found hne hfound

/-- A fenced block is one lexeme, from the opening fence on. -/
theorem reads_fenced (hmark : mark = '\x60' ∨ mark = '~') (s : List Char) :
    let fence := List.replicate 3 mark
    let rest := behindFirst fence.isPrefixOf (laterLines s)
    lexer.Reads true (fence ++ s) [⟨.string, fence ++ before s rest⟩] false rest := by
  intro fence rest
  have hsplit : [mark, mark] ++ before s rest ++ rest = mark :: mark :: s :=
    congrArg ([mark, mark] ++ ·) (before_append_of_suffix (behindFirst_suffix _ s))
  have hstep := step_fence hmark s
  rw [← hsplit] at hstep
  have hreads : lexer.Reads true (mark :: ([mark, mark] ++ before s rest ++ rest))
      [⟨.string, fence ++ before s rest⟩] false rest := .of_step hstep
  rw [hsplit] at hreads
  exact hreads

/-- At the front of a line, behind up to three spaces, a fence opens a block, unless it is of tildes
and there are spaces in front: it is text then. The block is one lexeme. It goes on to the end of
the first later line that has the fence at its very front, or to the end of the text. That is where
the first closing fence is, if the closing fence is not set in, or nothing follows it, or there is
none. -/
theorem reads_fence
    (hvisits : lexer.Visits text lineStart
      (List.replicate k ' ' ++ (List.replicate 3 mark ++ s)))
    (hfront : AtLine text (List.replicate k ' ' ++ (List.replicate 3 mark ++ s))) (hk : k ≤ 3)
    (hmark : mark = '\x60' ∨ mark = '~') :
    let fence := List.replicate 3 mark
    let rest := behindFirst fence.isPrefixOf (laterLines s)
    (mark = '\x60' ∨ k = 0 →
      lexer.Reads lineStart (List.replicate k ' ' ++ (fence ++ s))
        (indentLexemes k ++ [⟨.string, fence ++ before s rest⟩]) false rest) ∧
    (mark = '~' → 0 < k →
      lexer.Reads lineStart (List.replicate k ' ' ++ (fence ++ s))
        [⟨.text, List.replicate k ' ' ++ (fence ++ s.takeWhile (!textStop.has ·))⟩] false
        (s.dropWhile (!textStop.has ·))) ∧
    (rest = behindFirst (fun line => Fence mark line) (laterLines s) ↔
      ∀ line ∈ (laterLines s).find? (fun line => Fence mark line),
        fence <+: line ∨ fromNewline line = []) := by
  intro fence rest
  have hne : mark ≠ '\n' := mark_ne_newline hmark
  obtain rfl := hfront.flag hvisits hne
  refine ⟨fun hopens => ?_, ?_, ?_⟩
  · have hindent : lexer.Reads true (List.replicate k ' ' ++ (fence ++ s)) (indentLexemes k) true
        (fence ++ s) := by
      rcases hopens with rfl | rfl
      · exact reads_indent hk (by decide)
      · exact .nil
    exact hindent.append (reads_fenced hmark s)
  · rintro rfl hpos
    have htext : ∀ c ∈ s.takeWhile (!textStop.has ·), textStop.has c = false := by
      intro c hc
      simpa using List.mem_takeWhile_imp hc
    have htail : Stops (!textStop.has ·) (s.dropWhile (!textStop.has ·)) := .dropWhile _ s
    have hreads := reads_tildes hk hpos htext htail
    rw [List.takeWhile_append_dropWhile] at hreads
    exact hreads
  · have hnarrow : ∀ line, fence.isPrefixOf line = true → decide (Fence mark line) = true :=
      fun line h => decide_eq_true (fence_of_isPrefixOf h)
    simp only [rest, behindFirst_eq_iff hnarrow, List.isPrefixOf_iff_prefix]

/-- A fence of the other kind is a line of the block. -/
theorem reads_fence_otherKind :
    let fence := List.replicate 3 '\x60'
    let body := ['\n', 'a', '\n', '~', '~', '~', '\n', '\x60', '\x60', '\x60']
    let text := ' ' :: (fence ++ (body ++ ['\n', 'b']))
    lexer.Visits text true text ∧ AtLine text text ∧
      lexer.Reads true text [⟨.whitespace, [' ']⟩, ⟨.string, fence ++ body⟩] false ['\n', 'b'] ∧
      behindFirst (fun line => Fence '\x60' line) (laterLines (body ++ ['\n', 'b'])) =
        ['\n', 'b'] := by
  intro fence body text
  have hfront : AtLine text text := by decide
  have hrest : behindFirst fence.isPrefixOf (laterLines (body ++ ['\n', 'b'])) = ['\n', 'b'] := by
    decide
  have hfirst : ∀ line ∈ (laterLines (body ++ ['\n', 'b'])).find? (fun line => Fence '\x60' line),
      fence <+: line ∨ fromNewline line = [] := by decide
  have hreads := reads_fence (k := 1) (s := body ++ ['\n', 'b']) .start hfront (by decide)
    (.inl rfl)
  dsimp only at hreads
  rw [hrest] at hreads
  exact ⟨.start, hfront, hreads.1 (.inl rfl), (hreads.2.2.2 hfirst).symm⟩

/-- A closing fence behind spaces is passed over, and what follows the block is taken into it. -/
theorem lex_closingBehindSpaces :
    let closing := [' ', ' ', '\x60', '\x60', '\x60', '\n', 'y']
    let body := '\n' :: 'x' :: '\n' :: closing
    let text := List.replicate 3 '\x60' ++ body
    (laterLines body).find? (fun line => Fence '\x60' line) = some closing ∧
      fromNewline closing = ['\n', 'y'] ∧ lexer.lex text = [⟨.string, text⟩] := by
  decide +kernel

end Highlight.Markdown
