import Highlight.Language.Rust
import Highlight.Proofs.CodeTokens
import Highlight.Proofs.Printing

/-!
# The tokens of Rust

As everywhere, a token is taken because the rules in front of its own decline. Here the first
character rarely settles that. A single quote opens a character or a lifetime, and which of them it
is depends on whether a quote comes two characters later. The letters of an affix may be those of a
string, of a byte, of a raw identifier or of a word, and the second character tells the first three
from the last: within a word and in a gap there is neither a quote nor a hash.
-/

namespace Highlight.Rust

variable {c : Char} {affix body w s rest : List Char} {kind : Kind} {t : Lexeme}

/-- The tokens, with their kinds. -/
inductive Token : Lexeme → Prop where
  | word {w : List Char} (hw : Identifier w) : Token ⟨vocabulary.kind w, w⟩
  | number {kind : Kind} {w : List Char} (hw : numbers.Literal kind w) : Token ⟨kind, w⟩
  | string {kind : Kind} {affix w : List Char} (hw : strings.Literal affix kind w) :
      Token ⟨kind, w⟩
  | character {body : List Char} (hbody : CharacterBody body) :
      Token ⟨.stringChar, '\x27' :: (body ++ ['\x27'])⟩
  | byte {body : List Char} (hbody : CharacterBody body) :
      Token ⟨.stringChar, 'b' :: '\x27' :: (body ++ ['\x27'])⟩
  | lifetime {w : List Char} (hw : Identifier w) : Token ⟨.nameLabel, '\x27' :: w⟩
  | rawIdentifier {w : List Char} (hw : Identifier w) : Token ⟨.name, 'r' :: '#' :: w⟩
  | operator {w : List Char} (hw : w ∈ operators.spellings) : Token ⟨.operator, w⟩
  | punctuation {c : Char} (hc : punctuation.has c = true) : Token ⟨.punctuation, [c]⟩

/-- What Rust's tokens are made of. -/
def parts : CodeSyntax where
  comments := comments
  strings := strings
  numbers := numbers
  operators := operators
  punctuation := punctuation

theorem clear_parts : parts.Clear where
  numbers := by constructor <;> decide
  operators := by constructor <;> decide
  letters := by decide
  openings := by decide
  markers := by decide
  words := .ident
  signs := CodeSyntax.forall_mem_signs (by decide) (AsciiSet.forall_of_spelt rfl (by decide))
  signStarts := CodeSyntax.forall_mem_signs (by decide) (AsciiSet.forall_of_spelt rfl (by decide))
  punctuation := AsciiSet.forall_of_spelt rfl (by decide)

/-- The parts with the proof that they can be told apart. -/
def code : CodeSyntax.Distinct := ⟨parts, clear_parts⟩

theorem scanQuote_of_ne (hc : c ≠ '\x27') (s : List Char) : scanQuote (c :: s) = none :=
  if_pos hc

theorem scanByte_eq_none (h : c = 'b' → s.head? ≠ some '\x27') : scanByte (c :: s) = none := by
  unfold scanByte
  split
  · next heq =>
      obtain ⟨hc, rfl⟩ := List.cons.inj heq
      exact absurd rfl (h hc)
  · rfl

theorem scanRawIdentifier_eq_none (h : c = 'r' → s.head? ≠ some '#') :
    scanRawIdentifier (c :: s) = none := by
  unfold scanRawIdentifier
  split
  · next heq =>
      obtain ⟨hc, rfl⟩ := List.cons.inj heq
      exact absurd rfl (h hc)
  · rfl

theorem scanAttribute_of_ne (hc : c ≠ '#') (s : List Char) : scanAttribute (c :: s) = none := by
  unfold scanAttribute
  split
  · next heq => exact absurd (List.cons.inj heq).1 hc
  · rfl

/-- Behind a hash on its own there is no attribute. -/
theorem scanAttribute_gap (hrest : Gap rest) : scanAttribute (c :: rest) = none := by
  have hbang : behindBang rest = rest := by
    cases rest with
    | nil => rfl
    | cons d rest => exact if_neg (ne_of_class (hrest d rfl) (by decide))
  unfold scanAttribute
  split
  · next heq =>
      obtain ⟨-, rfl⟩ := List.cons.inj heq
      rw [hbang]
      split
      · next s' => exact absurd (hrest '[' rfl) (by decide)
      · rfl
  · rfl

/-- In front of a gap no word calls a macro. -/
theorem readsWords : Rule.ReadsWords .identStart .identContinue vocabulary.kind scanWord := by
  refine Rule.readsWords_of_gap (by decide) (by decide) (fun s hs => ?_) fun s hs hgap => ?_
  · rw [scanWord, behindIdentifier?, hs, if_neg (by decide)]
  · simp only [scanWord, behindIdentifier?, hs, if_true, identifierOf]
    split
    · next s' heq => exact absurd (hgap '!' (by rw [heq, List.head?_cons]; rfl)) (by decide)
    · rfl

/-- Between the first character of an identifier and a gap nothing stands that goes on no word. -/
theorem head?_ne_of_word {d : Char} (hs : ∀ c ∈ s, continuesWord .identContinue c = true)
    (hrest : Gap rest) (hd : continuesWord .identContinue d = false)
    (hspace : AsciiSet.whitespace.has d = false) : (s ++ rest).head? ≠ some d := by
  intro h
  cases s with
  | nil =>
      rw [hrest d h] at hspace
      cases hspace
  | cons c s =>
      obtain rfl := Option.some.inj h
      rw [hs c List.mem_cons_self] at hd
      cases hd

theorem scanByte_declines_word (hw : Identifier w) : Rule.Declines w scanByte := by
  intro rest hrest
  cases hw with
  | run hc ht =>
      exact scanByte_eq_none fun _ => head?_ne_of_word ht hrest (by decide) (by decide)

theorem scanRawIdentifier_declines_word (hw : Identifier w) :
    Rule.Declines w scanRawIdentifier := by
  intro rest hrest
  cases hw with
  | run hc ht =>
      exact scanRawIdentifier_eq_none fun _ => head?_ne_of_word ht hrest (by decide) (by decide)

/-- A hash that is a sign has a gap behind it. -/
theorem scanAttribute_declines_sign (h : code.Sign t) : Rule.Declines t.text scanAttribute := by
  have hhash : ∀ w ∈ code.signs, w = ['#'] ∨ ∀ c ∈ w.head?, c ≠ '#' :=
    CodeSyntax.forall_mem_signs (by decide) (AsciiSet.forall_of_spelt rfl (by decide))
  obtain ⟨c, s, hcs⟩ := List.exists_cons_of_ne_nil (code.clear.signs _ h.mem).1
  intro rest hrest
  rcases hhash t.text h.mem with hw | hw
  · rw [hw]
    exact scanAttribute_gap hrest
  · rw [hcs] at hw ⊢
    exact scanAttribute_of_ne (hw c rfl) _

theorem recognises_sign (h : code.Sign t) : Rule.Recognises t (Rule.firstOf rules) := by
  have hstart : ∀ w ∈ code.signs, ∀ c ∈ w.head?, c ≠ '\x27' ∧ c ≠ 'b' ∧ c ≠ 'r' :=
    CodeSyntax.forall_mem_signs (by decide) (AsciiSet.forall_of_spelt rfl (by decide))
  have hhead := code.clear.sign_head hstart h
  have hplain := code.clear.sign_plain h
  have hquote : Rule.Declines t.text scanQuote :=
    Rule.declines_of_head hhead fun _ hc => scanQuote_of_ne hc.1
  have hbyte : Rule.Declines t.text scanByte :=
    Rule.declines_of_head hhead fun _ hc _ => scanByte_eq_none fun hb => absurd hb hc.2.1
  have hraw : Rule.Declines t.text scanRawIdentifier :=
    Rule.declines_of_head hhead fun _ hc _ => scanRawIdentifier_eq_none fun hr => absurd hr hc.2.2
  exact .behind hplain.whitespace <| .behind hplain.comments <| .behind hquote <|
    .behind hbyte <| .behind hplain.strings <| .behind hraw <|
    .behind (code.clear.numbers_decline_sign h) <| .behind (scanAttribute_declines_sign h) <|
    .behind (code.clear.words_decline_sign readsWords h) <| code.clear.recognises_sign h

theorem recognises_word (hw : Identifier w) :
    Rule.Recognises ⟨vocabulary.kind w, w⟩ (Rule.firstOf rules) := by
  have hplain := code.clear.word_plain hw
  have hquote : Rule.Declines w scanQuote :=
    Rule.declines_of_head hw.head fun c hc => scanQuote_of_ne (ne_of_class hc (by decide))
  have hattribute : Rule.Declines w scanAttribute :=
    Rule.declines_of_head hw.head fun c hc => scanAttribute_of_ne (ne_of_class hc (by decide))
  exact .behind hplain.whitespace <| .behind hplain.comments <| .behind hquote <|
    .behind (scanByte_declines_word hw) <| .behind hplain.strings <|
    .behind (scanRawIdentifier_declines_word hw) <|
    .behind (code.clear.numbers_decline_word hw) <| .behind hattribute <|
    .first (readsWords.recognises hw)

theorem recognises_number (hw : numbers.Literal kind w) :
    Rule.Recognises ⟨kind, w⟩ (Rule.firstOf rules) := by
  have hplain := code.clear.number_plain hw
  have hquote : Rule.Declines w scanQuote :=
    Rule.declines_of_head hw.head fun c hc => scanQuote_of_ne (ne_of_class hc (by decide))
  have hbyte : Rule.Declines w scanByte :=
    Rule.declines_of_head hw.head fun c hc _ =>
      scanByte_eq_none fun h => absurd h (ne_of_class hc (by decide))
  have hraw : Rule.Declines w scanRawIdentifier :=
    Rule.declines_of_head hw.head fun c hc _ =>
      scanRawIdentifier_eq_none fun h => absurd h (ne_of_class hc (by decide))
  exact .behind hplain.whitespace <| .behind hplain.comments <| .behind hquote <|
    .behind hbyte <| .behind hplain.strings <| .behind hraw <|
    .first (code.clear.recognises_number hw)

/-- No affix has a single quote behind it. -/
theorem scanByte_of_affix? (h : strings.affix? s = some affix) : scanByte s = none := by
  unfold scanByte
  split
  · cases h
  · rfl

/-- What begins with an affix and something that opens a literal is left to the rule for strings. -/
theorem firstOf_of_affix? {r : Match} (haffix : strings.affix? (c :: s) = some affix)
    (hscan : strings.scan (c :: s) = some r) : Rule.firstOf rules (c :: s) = some r := by
  have hhead : ∀ c ∈ strings.openings, AsciiSet.whitespace.has c = false ∧ c ≠ '\x27' ∧
      ∀ marker ∈ code.comments.markers, c ∉ marker := by decide
  have hopens : c ∈ strings.openings := by
    by_contra hnot
    rw [StringSyntax.affix?_cons_eq_none hnot] at haffix
    cases haffix
  obtain ⟨hspace, hquote, hmarkers⟩ := hhead c hopens
  have hcomments : comments.scan (c :: s) = none :=
    code.clear.comments_scan_cons_eq_none hmarkers s
  rw [rules, Rule.firstOf_cons_of_none (Rule.whitespace_of_notMem hspace),
    Rule.firstOf_cons_of_none hcomments, Rule.firstOf_cons_of_none (scanQuote_of_ne hquote _),
    Rule.firstOf_cons_of_none (scanByte_of_affix? haffix), Rule.firstOf_cons_of_some hscan]

theorem recognises_string (hw : strings.Literal affix kind w) :
    Rule.Recognises ⟨kind, w⟩ (Rule.firstOf rules) := by
  intro rest hrest
  have hscan := code.clear.recognises_string hw rest hrest
  have haffix := hw.affix?_append (by decide) rfl rest
  obtain ⟨c, t, rfl, -⟩ := hw.head
  exact firstOf_of_affix? haffix hscan

theorem opensCharacter_append (hbody : CharacterBody body) (rest : List Char) :
    opensCharacter (body ++ '\x27' :: rest) = true := by
  cases hbody with
  | plain => exact Bool.or_true _
  | escape => rfl

/-- A lifetime is no character, since no quote closes it. -/
theorem opensCharacter_word (hw : Identifier w) (hrest : Gap rest) :
    opensCharacter (w ++ rest) = false := by
  cases hw with
  | @run c t hc ht =>
      have hescape : c ≠ '\x5c' := ne_of_class hc (by decide)
      have hquote : (t ++ rest).head? ≠ some '\x27' :=
        head?_ne_of_word ht hrest (by decide) (by decide)
      rw [List.cons_append, opensCharacter, beq_eq_false_iff_ne.2 hescape,
        beq_eq_false_iff_ne.2 hquote, Bool.or_false]

theorem recognises_character (hbody : CharacterBody body) :
    Rule.Recognises ⟨.stringChar, '\x27' :: (body ++ ['\x27'])⟩ (Rule.firstOf rules) := by
  refine .behind (fun _ _ => Rule.whitespace_of_notMem (by decide)) <|
    .behind (fun _ _ => code.clear.comments_scan_cons_eq_none (by decide) _) <|
    .first fun rest _ => ?_
  show scanQuote ('\x27' :: (body ++ ['\x27'] ++ rest)) = some ⟨.stringChar, rest⟩
  rw [List.append_assoc, List.singleton_append, scanQuote, if_neg (by decide),
    if_pos (opensCharacter_append hbody rest), scanCharacter_append hbody]

theorem recognises_byte (hbody : CharacterBody body) :
    Rule.Recognises ⟨.stringChar, 'b' :: '\x27' :: (body ++ ['\x27'])⟩ (Rule.firstOf rules) := by
  refine .behind (fun _ _ => Rule.whitespace_of_notMem (by decide)) <|
    .behind (fun _ _ => code.clear.comments_scan_cons_eq_none (by decide) _) <|
    .behind (fun _ _ => scanQuote_of_ne (by decide) _) <|
    .first fun rest _ => ?_
  show scanByte ('b' :: '\x27' :: (body ++ ['\x27'] ++ rest)) = some ⟨.stringChar, rest⟩
  rw [List.append_assoc, List.singleton_append, scanByte, scanCharacter_append hbody]

theorem recognises_lifetime (hw : Identifier w) :
    Rule.Recognises ⟨.nameLabel, '\x27' :: w⟩ (Rule.firstOf rules) := by
  refine .behind (fun _ _ => Rule.whitespace_of_notMem (by decide)) <|
    .behind (fun _ _ => code.clear.comments_scan_cons_eq_none (by decide) _) <|
    .first fun rest hrest => ?_
  rw [List.cons_append, scanQuote, if_neg (by decide),
    if_neg (by rw [opensCharacter_word hw hrest]; decide),
    hw.behindIdentifier?_append (hrest.stops (by decide))]

/-- What is behind the hash of a raw identifier is no quote, so that it is no string in hashes. -/
theorem strings_scan_rawIdentifier (hc : startsWord .identStart c = true) (s : List Char) :
    strings.scan ('r' :: '#' :: c :: s) = none := by
  have hhash : c ≠ '#' := ne_of_class hc (by decide)
  have hquote : c ≠ '\x22' := ne_of_class hc (by decide)
  have hhashed : strings.scanHashed ('#' :: c :: s) = none := by
    simp [StringSyntax.scanHashed, hhash, hquote]
  have haffix : strings.affix? ('r' :: '#' :: c :: s) = some ['r'] := rfl
  have hscan : strings.scanAffixed ('r' :: '#' :: c :: s) = none := by
    rw [StringSyntax.scanAffixed, haffix]
    exact hhashed
  have hbacktick : strings.scanBacktick ('r' :: '#' :: c :: s) = none :=
    StringSyntax.scanBacktick_cons_eq_none (by decide)
  rw [StringSyntax.scan, Rule.firstOf_cons_of_none hbacktick, Rule.firstOf_cons_of_none hscan,
    Rule.firstOf_nil]

theorem recognises_rawIdentifier (hw : Identifier w) :
    Rule.Recognises ⟨.name, 'r' :: '#' :: w⟩ (Rule.firstOf rules) := by
  have hstrings : Rule.Declines ('r' :: '#' :: w) strings.scan := by
    obtain ⟨c, t, rfl, hc⟩ := hw.head
    exact fun rest _ => strings_scan_rawIdentifier hc (t ++ rest)
  refine .behind (fun _ _ => Rule.whitespace_of_notMem (by decide)) <|
    .behind (fun _ _ => code.clear.comments_scan_cons_eq_none (by decide) _) <|
    .behind (fun _ _ => scanQuote_of_ne (by decide) _) <|
    .behind (fun _ _ => scanByte_eq_none fun h => absurd h (by decide)) <|
    .behind hstrings <| .first fun rest hrest => ?_
  show scanRawIdentifier ('r' :: '#' :: (w ++ rest)) = some ⟨.name, rest⟩
  rw [scanRawIdentifier, hw.behindIdentifier?_append (hrest.stops (by decide)), Option.map_some]

theorem Token.recognises (h : Token t) : Rule.Recognises t (Rule.firstOf rules) := by
  cases h with
  | word hw => exact recognises_word hw
  | number hw => exact recognises_number hw
  | string hw => exact recognises_string hw
  | character hbody => exact recognises_character hbody
  | byte hbody => exact recognises_byte hbody
  | lifetime hw => exact recognises_lifetime hw
  | rawIdentifier hw => exact recognises_rawIdentifier hw
  | operator hw => exact recognises_sign (.operator hw)
  | punctuation hc => exact recognises_sign (.punctuation hc)

theorem Token.visible (h : Token t) : Visible t.text := by
  cases h with
  | word hw => exact hw.visible
  | number hw => exact hw.visible
  | string hw => exact code.clear.string_visible hw
  | character => exact ⟨_, _, rfl, by decide⟩
  | byte => exact ⟨_, _, rfl, by decide⟩
  | lifetime => exact ⟨_, _, rfl, by decide⟩
  | rawIdentifier => exact ⟨_, _, rfl, by decide⟩
  | operator hw => exact (code.clear.sign_plain (.operator hw)).visible
  | punctuation hc => exact (code.clear.sign_plain (.punctuation hc)).visible

theorem lex_tokens {tokens : List Lexeme} (h : ∀ t ∈ tokens, Token t) :
    lexer.lex (printed tokens) = tokens.intersperse blank :=
  Lexer.lex_printed_ofRules consumes_rules (fun _ ht => ht.recognises) (fun _ ht => ht.visible) h

end Highlight.Rust
