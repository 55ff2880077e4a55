import Highlight.Proofs.NumberLiterals
import Highlight.Proofs.StringLiterals

/-!
# Tokens that languages share

Go, Rust, JavaScript and Python all have words, numbers, strings, operators and punctuation, and
read them by the same rules with other classes and spellings. `CodeSyntax` holds the classes and
spellings of one language.

A token is taken because every rule in front of its own declines. How the shared rules decline is
shown here once, for any language whose classes and spellings keep out of each other's way. What
that takes is `CodeSyntax.Clear`, and `CodeSyntax.Distinct` has a proof of it beside the classes and
spellings, found for a language at hand by going through them. What is left to a language are its
own rules and the order of all of them.

To the rules in front of theirs, operators and punctuation are the same thing: signs. Neither a
literal nor a word nor a comment begins with a sign, not even with what a gap adds to it.
-/

namespace Highlight

namespace Rule

/-- A rule for words takes a word in front of a gap, and declines where none starts. -/
structure ReadsWords (start set : AsciiSet) (kind : List Char → Kind) (rule : Rule) : Prop where
  recognises {w : List Char} (hw : Word start set w) : Recognises ⟨kind w, w⟩ rule
  declines {c : Char} (hc : startsWord start c = false) (s : List Char) : rule (c :: s) = none

/-- Where a word ends is told by its class alone, so all that a rule for words has to say is what it
makes of a word with a gap behind it. -/
theorem readsWords_of_gap {start set : AsciiSet} {kind : List Char → Kind} {rule : Rule}
    (hsub : ∀ c ∈ start.members, set.has c = true)
    (hspace : ∀ c ∈ AsciiSet.whitespace.members, continuesWord set c = false)
    (hnone : ∀ s, atWord start s = false → rule s = none)
    (hword : ∀ s, atWord start s = true → Gap (behindWord set s) →
      rule s = some ⟨kind (wordOf set s), behindWord set s⟩) :
    ReadsWords start set kind rule where
  recognises {w} hw rest hrest := by
    have hstop : Stops (continuesWord set) rest := hrest.stops hspace
    have hbehind := hw.behindWord_append hsub hstop
    have hfound := hword (w ++ rest) (hw.atWord_append rest) (by rw [hbehind]; exact hrest)
    rw [hfound, hbehind, hw.wordOf_append hsub hstop]
  declines hc s := hnone _ hc

end Rule

theorem Vocabulary.readsWords_scan (vocabulary : Vocabulary) :
    Rule.ReadsWords .identStart .identContinue vocabulary.kind vocabulary.scan := by
  refine Rule.readsWords_of_gap (by decide) (by decide) (fun s hs => ?_) fun s hs _ => ?_
  · rw [scan, behindIdentifier?, hs, if_neg (by decide)]
  · rw [scan, behindIdentifier?, hs, if_pos rfl]
    rfl

/-- What the tokens of a language are made of, as far as languages share them. -/
structure CodeSyntax where
  comments : CommentSyntax
  strings : StringSyntax
  numbers : NumberSyntax
  operators : OperatorSyntax
  punctuation : AsciiSet
  /-- The ASCII characters that may start a word. -/
  wordStart : AsciiSet := .identStart
  /-- The ASCII characters that may go on a word. -/
  wordSet : AsciiSet := .identContinue

namespace CodeSyntax

variable {code : CodeSyntax} {affix w : List Char} {c : Char} {kind : Kind} {t : Lexeme}
  {rule : Rule} {rules : List Rule}

/-- Operators and punctuation. -/
def signs (code : CodeSyntax) : List (List Char) :=
  code.operators.spellings ++ code.punctuation.members.map fun c => [c]

theorem forall_mem_signs {p : List Char → Prop} (hoperators : ∀ w ∈ code.operators.spellings, p w)
    (hpunctuation : ∀ c, code.punctuation.has c = true → p [c]) : ∀ w ∈ code.signs, p w := by
  intro w hw
  rcases List.mem_append.1 hw with hw | hw
  · exact hoperators w hw
  · obtain ⟨c, hc, rfl⟩ := List.mem_map.1 hw
    exact hpunctuation c (AsciiSet.mem_members.1 hc)

/-- The tokens that are signs, with their kinds. -/
inductive Sign (code : CodeSyntax) : Lexeme → Prop where
  | operator {w : List Char} (hw : w ∈ code.operators.spellings) : Sign code ⟨.operator, w⟩
  | punctuation {c : Char} (hc : code.punctuation.has c = true) : Sign code ⟨.punctuation, [c]⟩

theorem Sign.mem (h : code.Sign t) : t.text ∈ code.signs := by
  cases h with
  | operator hw => exact List.mem_append_left _ hw
  | punctuation hc =>
      exact List.mem_append_right _ (List.mem_map_of_mem (AsciiSet.mem_members.2 hc))

/-- Classes for words of which no gap, digit or quote is a part. -/
structure ClearWords (start set : AsciiSet) : Prop where
  starts : ∀ c ∈ '\x60' :: (AsciiSet.whitespace.members ++ NumberSyntax.starts.members),
    startsWord start c = false
  affixes : ∀ c ∈ AsciiSet.letters.members, continuesWord set c = true
  ends : ∀ c ∈ AsciiSet.whitespace.members ++ StringSyntax.openers.members,
    continuesWord set c = false
  sub : ∀ c ∈ start.members, set.has c = true

theorem ClearWords.ident : ClearWords .identStart .identContinue := by
  constructor <;> decide

/-- Classes and spellings that are told apart by the first characters of what they are in front
of. -/
structure Clear (code : CodeSyntax) : Prop where
  numbers : code.numbers.Clear
  operators : code.operators.Clear
  letters : ∀ c ∈ code.strings.affixes, AsciiSet.letters.has c = true
  openings : ∀ c ∈ code.strings.openings,
    AsciiSet.whitespace.has c = false ∧ NumberSyntax.starts.has c = false
  markers : ∀ marker ∈ code.comments.markers, marker ≠ [] ∧ ∀ c ∈ marker,
    AsciiSet.whitespace.has c = false ∧ NumberSyntax.starts.has c = false ∧
      startsWord code.wordStart c = false ∧ c ∉ code.strings.openings
  words : ClearWords code.wordStart code.wordSet
  signs : ∀ w ∈ code.signs, w ≠ [] ∧ code.numbers.scan w = none ∧
    ∀ marker ∈ code.comments.markers, marker.isPrefixOf w = false
  signStarts : ∀ w ∈ code.signs, ∀ c ∈ w.head?, AsciiSet.whitespace.has c = false ∧
    startsWord code.wordStart c = false ∧ c ∉ code.strings.openings
  punctuation : ∀ c, code.punctuation.has c = true → code.operators.length? [c] = none

/-- The classes and spellings of a language whose tokens can be told apart. -/
structure Distinct extends CodeSyntax where
  clear : toCodeSyntax.Clear

/-- Neither white space nor a comment nor a string begins with a text in front of a gap. -/
structure Plain (code : CodeSyntax) (w : List Char) : Prop where
  visible : Visible w
  comments : Rule.Declines w code.comments.scan
  affix : ∀ rest, Gap rest → code.strings.affix? (w ++ rest) = none
  strings : Rule.Declines w code.strings.scan

theorem Plain.whitespace (h : code.Plain w) : Rule.Declines w Rule.whitespace :=
  Rule.whitespace_declines h.visible

theorem Plain.of_head {p : Char → Prop} (hw : ∃ c s, w = c :: s ∧ p c)
    (hp : ∀ c, p c → AsciiSet.whitespace.has c = false ∧ c ∉ code.strings.openings)
    (hcomments : Rule.Declines w code.comments.scan) : code.Plain w where
  visible := by
    obtain ⟨c, s, rfl, hc⟩ := hw
    exact ⟨c, s, rfl, (hp c hc).1⟩
  comments := hcomments
  affix rest _ := by
    obtain ⟨c, s, rfl, hc⟩ := hw
    exact StringSyntax.affix?_cons_eq_none (hp c hc).2
  strings := Rule.declines_of_head hw fun c hc _ => StringSyntax.scan_cons_eq_none (hp c hc).2

namespace Clear

theorem comments_scan_cons_eq_none (h : code.Clear)
    (hc : ∀ marker ∈ code.comments.markers, c ∉ marker) (s : List Char) :
    code.comments.scan (c :: s) = none := by
  refine CommentSyntax.scan_eq_none fun marker hmem => ?_
  obtain ⟨m, marker', rfl⟩ := List.exists_cons_of_ne_nil (h.markers marker hmem).1
  have hne : m ≠ c := fun hm => hc _ hmem (hm ▸ List.mem_cons_self)
  rw [List.isPrefixOf, beq_eq_false_iff_ne.2 hne, Bool.false_and]

theorem comments_decline {p : Char → Prop} (h : code.Clear) (hw : ∃ c s, w = c :: s ∧ p c)
    (hp : ∀ marker ∈ code.comments.markers, ∀ c ∈ marker, ¬ p c) :
    Rule.Declines w code.comments.scan :=
  Rule.declines_of_head hw fun _ hc =>
    h.comments_scan_cons_eq_none fun marker hmem hmark => hp marker hmem _ hmark hc

/-! A word may begin with the letters of an affix, but behind it in front of a gap nothing opens a
string. Everything else declines for its first character. -/

theorem word_affix? {rest : List Char} (h : code.Clear)
    (hw : Word code.wordStart code.wordSet w) (hrest : Gap rest) :
    code.strings.affix? (w ++ rest) = none := by
  have hstop : Stops (continuesWord code.wordSet) rest :=
    hrest.stops fun c hc => h.words.ends c (List.mem_append_left _ hc)
  have hmem : ∀ c ∈ code.strings.affixes, continuesWord code.wordSet c = true := fun c hc =>
    h.words.affixes c (AsciiSet.mem_members.2 (h.letters c hc))
  have hends : ∀ c ∈ StringSyntax.openers.members, continuesWord code.wordSet c = false :=
    fun c hc => h.words.ends c (List.mem_append_right _ hc)
  refine StringSyntax.affix?_eq_none hmem hends ?_
  rw [hstop.dropWhile_append (hw.forall_mem h.words.sub)]
  exact hrest.stops (by decide)

theorem strings_decline_word (h : code.Clear) (hw : Word code.wordStart code.wordSet w) :
    Rule.Declines w code.strings.scan := by
  intro rest hrest
  have haffixed : code.strings.scanAffixed (w ++ rest) = none := by
    rw [StringSyntax.scanAffixed, h.word_affix? hw hrest]
  obtain ⟨c, t, rfl, hc⟩ := hw.head
  have hne : c ≠ '\x60' := ne_of_class hc (h.words.starts '\x60' List.mem_cons_self)
  have hbacktick : code.strings.scanBacktick (c :: t ++ rest) = none :=
    StringSyntax.scanBacktick_cons_eq_none hne
  rw [StringSyntax.scan, Rule.firstOf_cons_of_none hbacktick, Rule.firstOf_cons_of_none haffixed,
    Rule.firstOf_nil]

theorem word_plain (h : code.Clear) (hw : Word code.wordStart code.wordSet w) : code.Plain w where
  visible := by
    obtain ⟨c, s, rfl, hc⟩ := hw.head
    refine ⟨c, s, rfl, AsciiSet.whitespace.has_eq_false hc fun d hd => h.words.starts d ?_⟩
    exact List.mem_cons_of_mem _ (List.mem_append_left _ hd)
  comments := h.comments_decline hw.head fun marker hmem c hc =>
    Bool.eq_false_iff.1 ((h.markers marker hmem).2 c hc).2.2.1
  affix _ hrest := h.word_affix? hw hrest
  strings := h.strings_decline_word hw

theorem numbers_decline_word (h : code.Clear) (hw : Word code.wordStart code.wordSet w) :
    Rule.Declines w code.numbers.scan := by
  refine Rule.declines_of_head hw.head fun c hc s => NumberSyntax.scan_cons_eq_none ?_
  refine NumberSyntax.starts.has_eq_false hc fun d hd => h.words.starts d ?_
  exact List.mem_cons_of_mem _ (List.mem_append_right _ hd)

/-! A number begins with a digit or a point, and a string with a quote or a letter of an affix. -/

theorem number_plain (h : code.Clear) (hw : code.numbers.Literal kind w) : code.Plain w := by
  have hspace : ∀ c ∈ NumberSyntax.starts.members, AsciiSet.whitespace.has c = false := by decide
  have hcomments := h.comments_decline hw.head fun marker hmem c hc =>
    Bool.eq_false_iff.1 ((h.markers marker hmem).2 c hc).2.1
  refine .of_head hw.head (fun c hc => ⟨hspace c (AsciiSet.mem_members.2 hc), fun hmem => ?_⟩)
    hcomments
  rw [(h.openings c hmem).2] at hc
  cases hc

theorem recognises_number (h : code.Clear) (hw : code.numbers.Literal kind w) :
    Rule.Recognises ⟨kind, w⟩ code.numbers.scan := fun _ hrest =>
  hw.scan_append h.numbers (hrest.stops (by decide)) fun _ => hrest.head?_ne_point

theorem string_visible (h : code.Clear) (hw : code.strings.Literal affix kind w) : Visible w :=
  hw.visible fun c hc => (h.openings c hc).1

theorem comments_decline_string (h : code.Clear) (hw : code.strings.Literal affix kind w) :
    Rule.Declines w code.comments.scan :=
  h.comments_decline hw.head fun marker hmem c hc => ((h.markers marker hmem).2 c hc).2.2.2

theorem recognises_string (h : code.Clear) (hw : code.strings.Literal affix kind w) :
    Rule.Recognises ⟨kind, w⟩ code.strings.scan := fun _ hrest =>
  hw.scan_append h.letters fun _ => hrest.stops (by decide)

/-! ## Signs

The rules in front of the two for signs decline: those for comments and for numbers for the whole of
the sign, as either may begin with a character that an operator begins with, and the others for its
first character. -/

theorem sign_head {p : Char → Prop} (h : code.Clear) (hp : ∀ w ∈ code.signs, ∀ c ∈ w.head?, p c)
    (ht : code.Sign t) : ∃ c s, t.text = c :: s ∧ p c := by
  obtain ⟨c, s, hcs⟩ := List.exists_cons_of_ne_nil (h.signs t.text ht.mem).1
  exact ⟨c, s, hcs, hp t.text ht.mem c (by rw [hcs, List.head?_cons]; rfl)⟩

theorem sign_plain (h : code.Clear) (ht : code.Sign t) : code.Plain t.text := by
  refine .of_head (h.sign_head h.signStarts ht) (fun _ hc => ⟨hc.1, hc.2.2⟩) fun rest hrest => ?_
  exact CommentSyntax.scan_append_eq_none
    (fun marker hmem c hc => ((h.markers marker hmem).2 c hc).1) (h.signs _ ht.mem).2.2 hrest

theorem numbers_decline_sign (h : code.Clear) (ht : code.Sign t) :
    Rule.Declines t.text code.numbers.scan := fun _ hrest =>
  NumberSyntax.scan_append_eq_none (h.signs _ ht.mem).1 (h.signs _ ht.mem).2.1 hrest

theorem words_decline_sign {kinds : List Char → Kind} (h : code.Clear)
    (hrule : Rule.ReadsWords code.wordStart code.wordSet kinds rule) (ht : code.Sign t) :
    Rule.Declines t.text rule :=
  Rule.declines_of_head (h.sign_head h.signStarts ht) fun _ hc => hrule.declines hc.2.1

theorem recognises_sign (h : code.Clear) (ht : code.Sign t) :
    Rule.Recognises t
      (Rule.firstOf (code.operators.scan :: Rule.punctuation code.punctuation :: rules)) := by
  cases ht with
  | operator hw =>
      exact .first fun rest hrest => OperatorSyntax.scan_append h.operators hw hrest
  | @punctuation c hc =>
      have hoperators : Rule.Declines [c] code.operators.scan := fun rest hrest =>
        OperatorSyntax.scan_append_eq_none h.operators (List.cons_ne_nil _ _)
          (h.punctuation c hc) hrest
      exact .behind hoperators (.first fun rest _ => Rule.punctuation_of_mem hc)

end Clear

end CodeSyntax

end Highlight
