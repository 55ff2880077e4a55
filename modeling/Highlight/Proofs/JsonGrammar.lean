import Highlight.Language
import Highlight.Proofs.NumberLiterals
import Highlight.Proofs.StringLiterals

/-!
# Texts of the JSON grammar

`Derives` is the grammar of JSON values, and says of every text that it derives which tokens the
text has. A lexer knows nothing of that grammar: it has no idea whether it is in an object or in an
array, and tells the name of a member from another string by what comes behind it. So a value is
read right only in front of what may follow one, blanks aside: a comma, a closing bracket, a closing
brace or the end of the text. No value is followed by a colon, only names are, and that is all there
is to know.

Blanks are lexemes of their own. What is left of a reading without them does not depend on how many
there are, and the two sides of a statement can be brought to the same blanks by dropping them.
-/

namespace Highlight.Json

variable {c : Char} {body w s rest int frac exp : List Char} {kind : Kind} {r : List Lexeme}

def Blanks (s : List Char) : Prop :=
  ∀ c ∈ s, blanks.has c = true

/-- What stands between the quotes of a string. -/
inductive StringBody : List Char → Prop where
  | nil : StringBody []
  | plain {c : Char} {body : List Char} (hc : 0x20 ≤ c.toNat) (hquote : c ≠ '\x22')
      (hescape : c ≠ '\x5c') (more : StringBody body) : StringBody (c :: body)
  | escape {c : Char} {body : List Char}
      (hc : c ∈ ['\x22', '\x5c', '/', 'b', 'f', 'n', 'r', 't']) (more : StringBody body) :
      StringBody ('\x5c' :: c :: body)
  | unicode {a b c d : Char} {body : List Char}
      (hdigits : ∀ x ∈ [a, b, c, d], AsciiSet.hexDigits.has x = true) (more : StringBody body) :
      StringBody ('\x5c' :: 'u' :: a :: b :: c :: d :: body)

/-- The text of a string with its quotes. -/
def quoted (body : List Char) : List Char :=
  '\x22' :: (body ++ ['\x22'])

/-- The digits in front of the fraction: no zero in front of other digits. -/
inductive Integer : List Char → Prop where
  | zero : Integer ['0']
  | positive {d : Char} {ds : List Char} (hd : AsciiSet.digits.has d = true) (hzero : d ≠ '0')
      (hds : ∀ c ∈ ds, AsciiSet.digits.has c = true) : Integer (d :: ds)

inductive Number : Kind → List Char → Prop where
  | mk {minus int frac exp : List Char} (hminus : minus ∈ [[], ['-']]) (hint : Integer int)
      (hfrac : plain.Fraction frac) (hexp : plain.Exponent exp) :
      Number (NumberSyntax.decimalKind frac exp) (minus ++ (int ++ (frac ++ exp)))

/-- The token of a structural character. -/
def mark (c : Char) : Lexeme := ⟨.punctuation, [c]⟩

/-- The parts that the grammar is made of. -/
inductive Part where
  | value
  /-- A value with the blanks around it. -/
  | element
  /-- A name, a colon and a value, with the blanks around them. -/
  | member
  | elements
  | members
  deriving DecidableEq, Repr

/-- A text is such a part, and these are its tokens. A whole text is an element. -/
inductive Derives : Part → List Char → List Lexeme → Prop where
  | constant {word : List Char} (hword : word ∈ constants.map String.toList) :
      Derives .value word [⟨.keywordConstant, word⟩]
  | number {kind : Kind} {w : List Char} (hw : Number kind w) : Derives .value w [⟨kind, w⟩]
  | string {body : List Char} (hbody : StringBody body) :
      Derives .value (quoted body) [⟨.string, quoted body⟩]
  | emptyArray {b : List Char} (hb : Blanks b) :
      Derives .value ('[' :: (b ++ [']'])) [mark '[', mark ']']
  | array {w : List Char} {r : List Lexeme} (elements : Derives .elements w r) :
      Derives .value ('[' :: (w ++ [']'])) (mark '[' :: (r ++ [mark ']']))
  | emptyObject {b : List Char} (hb : Blanks b) :
      Derives .value ('\x7b' :: (b ++ ['\x7d'])) [mark '\x7b', mark '\x7d']
  | object {w : List Char} {r : List Lexeme} (members : Derives .members w r) :
      Derives .value ('\x7b' :: (w ++ ['\x7d'])) (mark '\x7b' :: (r ++ [mark '\x7d']))
  | element {b b' w : List Char} {r : List Lexeme} (hb : Blanks b) (hb' : Blanks b')
      (value : Derives .value w r) : Derives .element (b ++ (w ++ b')) r
  | member {b b' name w : List Char} {r : List Lexeme} (hb : Blanks b) (hname : StringBody name)
      (hb' : Blanks b') (element : Derives .element w r) :
      Derives .member (b ++ (quoted name ++ (b' ++ ':' :: w)))
        (⟨.nameTag, quoted name⟩ :: mark ':' :: r)
  | lastElement {w : List Char} {r : List Lexeme} (element : Derives .element w r) :
      Derives .elements w r
  | elements {w w' : List Char} {r r' : List Lexeme} (element : Derives .element w r)
      (more : Derives .elements w' r') :
      Derives .elements (w ++ ',' :: w') (r ++ mark ',' :: r')
  | lastMember {w : List Char} {r : List Lexeme} (member : Derives .member w r) :
      Derives .members w r
  | members {w w' : List Char} {r r' : List Lexeme} (member : Derives .member w r)
      (more : Derives .members w' r') : Derives .members (w ++ ',' :: w') (r ++ mark ',' :: r')

/-! ## Reading without blanks

Between any two tokens there may be blanks, each run of them a lexeme. `significant` is what is left
of a reading without these. It is the same for a text as for the text with blanks in front, so where
the grammar puts one part behind another, the blanks between them need no mention. -/

/-- The lexemes of a text that are no blanks. -/
def significant (s : List Char) : List Lexeme :=
  (Language.json.lex s).filter fun lexeme => lexeme.kind ≠ .whitespace

theorem significant_nil : significant [] = [] := by
  rw [significant, Language.lex, Lexer.lex, Lexer.run_nil]
  rfl

theorem significant_append (hne : w ≠ []) (hkind : kind ≠ .whitespace)
    (h : Rule.firstOf rules (w ++ s) = some ⟨kind, s⟩) :
    significant (w ++ s) = ⟨kind, w⟩ :: significant s := by
  have hrun : Language.json.lex (w ++ s) = ⟨kind, w⟩ :: Language.json.lex s :=
    Lexer.run_ofRules_append consumes_rules hne h
  rw [significant, hrun, List.filter_cons_of_pos (by simpa using hkind), significant]

theorem significant_dropWhile (s : List Char) :
    significant (s.dropWhile blanks.has) = significant s := by
  cases hspace : s.takeWhile blanks.has with
  | nil =>
      have happ := @List.takeWhile_append_dropWhile _ blanks.has s
      rw [hspace, List.nil_append] at happ
      rw [happ]
  | cons c b =>
      -- All the blanks at the front make one lexeme, which is left out.
      have happ : c :: b ++ s.dropWhile blanks.has = s := by
        rw [← hspace, List.takeWhile_append_dropWhile]
      have hall : ∀ d ∈ c :: b, blanks.has d = true := by
        intro d hd
        rw [← hspace] at hd
        exact List.mem_takeWhile_imp hd
      have hrule : Rule.firstOf rules (c :: b ++ s.dropWhile blanks.has) =
          some ⟨.whitespace, s.dropWhile blanks.has⟩ :=
        Rule.firstOf_cons_of_some (Rule.run_append (List.cons_ne_nil c b) hall (.dropWhile _ s))
      have hrun : Language.json.lex (c :: b ++ s.dropWhile blanks.has) =
          ⟨.whitespace, c :: b⟩ :: Language.json.lex (s.dropWhile blanks.has) :=
        Lexer.run_ofRules_append consumes_rules (List.cons_ne_nil c b) hrule
      rw [happ] at hrun
      rw [significant, significant, hrun, List.filter_cons_of_neg (by simp)]

theorem significant_blanks (hb : Blanks s) (rest : List Char) :
    significant (s ++ rest) = significant rest := by
  rw [← significant_dropWhile, List.dropWhile_append_of_pos hb, significant_dropWhile]

/-! ## Tokens

A token is told by its own characters, except for a string. A string is the name of a member if a
colon follows, blanks aside, and so it is read right only in front of what may follow it. -/

/-- What may be behind a value, blanks aside. -/
def Follows (s : List Char) : Prop :=
  ∀ c ∈ (s.dropWhile blanks.has).head?, c ∈ [',', ']', '\x7d']

theorem Follows.nil : Follows [] := nofun

theorem Follows.cons (hc : c ∈ [',', ']', '\x7d']) (s : List Char) : Follows (c :: s) := by
  have hblank : ∀ c ∈ [',', ']', '\x7d'], blanks.has c = false := by decide
  rw [Follows, List.dropWhile_cons_of_neg (by rw [hblank c hc]; decide)]
  rintro d ⟨⟩
  exact hc

theorem Follows.append (hb : Blanks w) (h : Follows s) : Follows (w ++ s) := by
  rw [Follows, List.dropWhile_append_of_pos hb]
  exact h

/-- What follows a value goes on neither digits nor an exponent. -/
theorem Follows.stops (h : Follows s) {p : Char → Bool}
    (hp : ∀ c ∈ blanks.members ++ [',', ']', '\x7d'], p c = false) : Stops p s := by
  intro c hc
  cases s with
  | nil => cases hc
  | cons d s =>
      obtain rfl := Option.some.inj hc
      by_cases hblank : blanks.has d = true
      · exact hp d (List.mem_append_left _ (AsciiSet.mem_members.2 hblank))
      · rw [Follows, List.dropWhile_cons_of_neg hblank] at h
        exact hp d (List.mem_append_right _ (h d rfl))

theorem Follows.beforeColon (h : Follows s) : beforeColon s = false := by
  rw [Json.beforeColon, decide_eq_false_iff_not]
  intro hcolon
  exact absurd (h ':' hcolon) (by decide)

theorem beforeColon_blanks (hb : Blanks w) (s : List Char) :
    beforeColon (w ++ ':' :: s) = true := by
  rw [beforeColon, List.dropWhile_append_of_pos hb, List.dropWhile_cons_of_neg (by decide)]
  rfl

theorem StringBody.quoted (h : StringBody body) : Quoted.Body '\x22' true false body := by
  induction h with
  | nil => exact .nil
  | @plain c body hc hquote hescape more ih =>
      refine .plain hquote (fun _ => hescape) (fun _ => ?_) ih
      rintro rfl
      exact absurd hc (by decide)
  | escape hc more ih => exact .escape rfl ih
  | @unicode a b c d body hdigits more ih =>
      have hplain : ∀ x ∈ AsciiSet.hexDigits.members, x ≠ '\x22' ∧ x ≠ '\x5c' ∧ x ≠ '\n' := by
        decide
      have hmore : ∀ x ∈ [a, b, c, d], ∀ {body}, Quoted.Body '\x22' true false body →
          Quoted.Body '\x22' true false (x :: body) := by
        intro x hx body hbody
        obtain ⟨hquote, hescape, hline⟩ := hplain x (AsciiSet.mem_members.2 (hdigits x hx))
        exact .plain hquote (fun _ => hescape) (fun _ => hline) hbody
      exact .escape rfl (hmore a (by simp) (hmore b (by simp) (hmore c (by simp)
        (hmore d (by simp) ih))))

theorem firstOf_string (hbody : StringBody body) (s : List Char) :
    Rule.firstOf rules (quoted body ++ s) =
      some ⟨if beforeColon s then .nameTag else .string, s⟩ := by
  have hstring : scanString ('\x22' :: (body ++ '\x22' :: s)) =
      some ⟨if beforeColon s then .nameTag else .string, s⟩ := by
    have hrest := Quoted.rest_append (by decide) hbody.quoted s
    simp only [scanString, if_true, hrest]
  rw [quoted, List.cons_append, List.append_assoc, rules,
    Rule.firstOf_cons_of_none (Rule.run_of_notMem (by decide))]
  exact Rule.firstOf_cons_of_some hstring

theorem significant_name (hbody : StringBody body) (hb : Blanks w) (s : List Char) :
    significant (quoted body ++ (w ++ ':' :: s)) =
      ⟨.nameTag, quoted body⟩ :: significant (w ++ ':' :: s) := by
  have hrule := firstOf_string hbody (w ++ ':' :: s)
  rw [beforeColon_blanks hb, if_pos rfl] at hrule
  exact significant_append (List.cons_ne_nil _ _) (by decide) hrule

theorem significant_string (hbody : StringBody body) (hs : Follows s) :
    significant (quoted body ++ s) = ⟨.string, quoted body⟩ :: significant s := by
  have hrule := firstOf_string hbody s
  rw [hs.beforeColon, if_neg (by decide)] at hrule
  exact significant_append (List.cons_ne_nil _ _) (by decide) hrule

theorem scanString_of_ne (hc : c ≠ '\x22') (s : List Char) : scanString (c :: s) = none :=
  if_neg hc

theorem scanNumber_cons_eq_none (hminus : c ≠ '-') (hdigit : AsciiSet.digits.has c = false)
    (s : List Char) : scanNumber (c :: s) = none := by
  rw [scanNumber, behindMinus, if_neg hminus, NumberSyntax.atDigit, hdigit, if_neg (by decide)]

/-- A constant is found by the first of the three words that the text begins with. -/
theorem scanConstant_eq (s : List Char) :
    scanConstant s =
      ((['t', 'r', 'u', 'e'].isPrefixOf? s).or ((['f', 'a', 'l', 's', 'e'].isPrefixOf? s).or
        (['n', 'u', 'l', 'l'].isPrefixOf? s))).map fun rest => ⟨.keywordConstant, rest⟩ := by
  have hwords : "true".toList = ['t', 'r', 'u', 'e'] ∧ "false".toList = ['f', 'a', 'l', 's', 'e'] ∧
      "null".toList = ['n', 'u', 'l', 'l'] := by decide
  obtain ⟨htrue, hfalse, hnull⟩ := hwords
  simp only [scanConstant, constants, List.findSome?_cons, htrue, hfalse, hnull]
  cases ['t', 'r', 'u', 'e'].isPrefixOf? s with
  | some rest => rfl
  | none =>
      cases ['f', 'a', 'l', 's', 'e'].isPrefixOf? s with
      | some rest => rfl
      | none => cases ['n', 'u', 'l', 'l'].isPrefixOf? s <;> rfl

theorem scanConstant_cons_eq_none (hc : c ∉ ['t', 'f', 'n']) (s : List Char) :
    scanConstant (c :: s) = none := by
  simp only [List.mem_cons, List.not_mem_nil, or_false, not_or] at hc
  obtain ⟨ht, hf, hn⟩ := hc
  rw [scanConstant_eq, isPrefixOf?_cons_of_ne (Ne.symm ht), isPrefixOf?_cons_of_ne (Ne.symm hf),
    isPrefixOf?_cons_of_ne (Ne.symm hn)]
  rfl

theorem scanConstant_append (hw : w ∈ constants.map String.toList) (s : List Char) :
    scanConstant (w ++ s) = some ⟨.keywordConstant, s⟩ := by
  have hwords : constants.map String.toList =
      [['t', 'r', 'u', 'e'], ['f', 'a', 'l', 's', 'e'], ['n', 'u', 'l', 'l']] := by decide
  rw [hwords] at hw
  simp only [List.mem_cons, List.not_mem_nil, or_false] at hw
  rw [scanConstant_eq]
  rcases hw with rfl | rfl | rfl
  · rw [isPrefixOf?_append]
    rfl
  · rw [List.cons_append, isPrefixOf?_cons_of_ne (by decide), ← List.cons_append,
      isPrefixOf?_append]
    rfl
  · rw [List.cons_append, isPrefixOf?_cons_of_ne (by decide),
      isPrefixOf?_cons_of_ne (by decide), ← List.cons_append, isPrefixOf?_append]
    rfl

/-- A structural character is a token whatever is behind it. -/
theorem significant_mark (hc : structural.has c = true) (s : List Char) :
    significant (c :: s) = mark c :: significant s := by
  have hfree : ∀ c ∈ structural.members, blanks.has c = false ∧ c ≠ '\x22' ∧ c ≠ '-' ∧
      AsciiSet.digits.has c = false ∧ c ∉ ['t', 'f', 'n'] := by decide
  obtain ⟨hblank, hquote, hminus, hdigit, hletter⟩ := hfree c (AsciiSet.mem_members.2 hc)
  have hrule : Rule.firstOf rules ([c] ++ s) = some ⟨.punctuation, s⟩ := by
    rw [List.cons_append, List.nil_append, rules,
      Rule.firstOf_cons_of_none (Rule.run_of_notMem hblank),
      Rule.firstOf_cons_of_none (scanString_of_ne hquote s),
      Rule.firstOf_cons_of_none (scanNumber_cons_eq_none hminus hdigit s),
      Rule.firstOf_cons_of_none (scanConstant_cons_eq_none hletter s),
      Rule.firstOf_cons_of_some (Rule.punctuation_of_mem hc)]
  exact significant_append (List.cons_ne_nil _ _) (by decide) hrule

/-- So is a constant. -/
theorem significant_constant (hw : w ∈ constants.map String.toList) (s : List Char) :
    significant (w ++ s) = ⟨.keywordConstant, w⟩ :: significant s := by
  have hfree : ∀ w ∈ constants.map String.toList, w ≠ [] ∧ ∀ c ∈ w.head?, blanks.has c = false ∧
      c ≠ '\x22' ∧ c ≠ '-' ∧ AsciiSet.digits.has c = false := by decide
  have hscan := scanConstant_append hw s
  obtain ⟨hne, hhead⟩ := hfree w hw
  refine significant_append hne (by decide) ?_
  obtain ⟨c, t, rfl⟩ := List.exists_cons_of_ne_nil hne
  obtain ⟨hblank, hquote, hminus, hdigit⟩ := hhead c rfl
  rw [List.cons_append] at hscan ⊢
  rw [rules, Rule.firstOf_cons_of_none (Rule.run_of_notMem hblank),
    Rule.firstOf_cons_of_none (scanString_of_ne hquote _),
    Rule.firstOf_cons_of_none (scanNumber_cons_eq_none hminus hdigit _),
    Rule.firstOf_cons_of_some hscan]

theorem Integer.digits (h : Integer int) : plain.Digits int := by
  cases h with
  | zero => exact .run (by decide) (by simp)
  | positive hd hzero hds => exact .run hd fun c hc => NumberSyntax.isDigitOrGap_of_has (hds c hc)

theorem fraction_append (hfrac : plain.Fraction frac) (hs : Stops (plain.isDigitOrGap .digits) s)
    (hpoint : frac = [] → s.head? ≠ some '.') :
    fraction (frac ++ s) = ⟨if frac = [] then .numberInteger else .numberFloat, s⟩ := by
  cases hfrac with
  | none =>
      rw [List.nil_append, fraction, if_pos rfl]
      rintro t rfl
      exact hpoint rfl rfl
  | @digits ds hds =>
      rw [List.cons_append, fraction, if_pos (hds.atDigit_append s),
        NumberSyntax.behindDigits_append hds.forall_mem hs, if_neg (List.cons_ne_nil _ _)]

/-- The minus sign is left behind, and digits are left alone. -/
theorem behindMinus_append {minus : List Char} (hminus : minus ∈ [[], ['-']]) (hint : Integer int)
    (s : List Char) : behindMinus (minus ++ (int ++ s)) = int ++ s := by
  simp only [List.mem_cons, List.not_mem_nil, or_false] at hminus
  rcases hminus with rfl | rfl
  · cases hint with
    | zero => rfl
    | positive hd => exact if_neg (ne_of_class hd (by decide))
  · rfl

theorem scanNumber_append (hw : Number kind w) (hs : Follows s) :
    scanNumber (w ++ s) = some ⟨kind, s⟩ := by
  cases hw with
  | @mk minus int frac exp hminus hint hfrac hexp =>
      have hblur : Stops NumberSyntax.blurring.has s := hs.stops (by decide)
      have hpoint : s.head? ≠ some '.' := by
        have hstop : Stops (fun c => c == '.') s := hs.stops (by decide)
        exact fun h => absurd (hstop '.' h) (by decide)
      have hexpStop : Stops (plain.isDigitOrGap .digits) (exp ++ s) :=
        @NumberSyntax.stops_digits_append plain [] exp s .none hexp hblur
      simp only [List.append_assoc]
      rw [scanNumber, behindMinus_append hminus hint, if_pos (hint.digits.atDigit_append _),
        NumberSyntax.behindDigits_append hint.digits.forall_mem
          (NumberSyntax.stops_digits_append hfrac hexp hblur),
        fraction_append hfrac hexpStop fun _ => hexp.head?_append_ne_point fun _ => hpoint,
        NumberSyntax.withExponent_append hexp (NumberSyntax.stops_digits hblur)
          (NumberSyntax.stops_exponentMarks hblur), NumberSyntax.decimalKind_eq]

theorem Number.kind_eq (h : Number kind w) : kind = .numberInteger ∨ kind = .numberFloat := by
  cases h
  rw [NumberSyntax.decimalKind]
  split
  · exact .inl rfl
  · exact .inr rfl

theorem Number.head (h : Number kind w) :
    ∃ c t, w = c :: t ∧ blanks.has c = false ∧ c ≠ '\x22' := by
  have hfree : ∀ c ∈ AsciiSet.digits.members, blanks.has c = false ∧ c ≠ '\x22' := by decide
  cases h with
  | mk hminus hint =>
      simp only [List.mem_cons, List.not_mem_nil, or_false] at hminus
      rcases hminus with rfl | rfl
      · cases hint with
        | zero => exact ⟨_, _, rfl, by decide, by decide⟩
        | positive hd => exact ⟨_, _, rfl, hfree _ (AsciiSet.mem_members.2 hd)⟩
      · exact ⟨_, _, rfl, by decide, by decide⟩

theorem significant_number (hw : Number kind w) (hs : Follows s) :
    significant (w ++ s) = ⟨kind, w⟩ :: significant s := by
  have hscan := scanNumber_append hw hs
  have hkind : kind ≠ .whitespace := by
    rcases hw.kind_eq with rfl | rfl <;> decide
  obtain ⟨c, t, rfl, hblank, hquote⟩ := hw.head
  refine significant_append (List.cons_ne_nil _ _) hkind ?_
  rw [List.cons_append] at hscan ⊢
  rw [rules, Rule.firstOf_cons_of_none (Rule.run_of_notMem hblank),
    Rule.firstOf_cons_of_none (scanString_of_ne hquote _), Rule.firstOf_cons_of_some hscan]

theorem significant_enclosed {opening closing : Char} (hopening : structural.has opening = true)
    (hclosing : structural.has closing = true)
    (h : significant (w ++ closing :: s) = r ++ significant (closing :: s)) :
    significant (opening :: (w ++ [closing]) ++ s) =
      mark opening :: (r ++ [mark closing]) ++ significant s := by
  rw [List.cons_append, List.append_assoc, List.cons_append, List.nil_append,
    significant_mark hopening, h, significant_mark hclosing, List.cons_append, List.append_assoc]
  rfl

theorem significant_separated {r' : List Lexeme}
    (h : significant (w ++ ',' :: (rest ++ s)) = r ++ significant (',' :: (rest ++ s)))
    (h' : significant (rest ++ s) = r' ++ significant s) :
    significant (w ++ ',' :: rest ++ s) = r ++ mark ',' :: r' ++ significant s := by
  rw [List.append_assoc, List.cons_append, h, significant_mark (by decide), h', List.append_assoc]
  rfl

/-- In front of what may follow a value, a part is read as the tokens that it derives. -/
theorem Derives.significant {part : Part} (h : Derives part w r) (hs : Follows s) :
    significant (w ++ s) = r ++ significant s := by
  induction h generalizing s with
  | constant hword => exact significant_constant hword s
  | number hw => exact significant_number hw hs
  | string hbody => exact significant_string hbody hs
  | emptyArray hb =>
      exact significant_enclosed (r := []) (by decide) (by decide) (significant_blanks hb _)
  | array elements ih =>
      exact significant_enclosed (by decide) (by decide) (ih (.cons (by decide) s))
  | emptyObject hb =>
      exact significant_enclosed (r := []) (by decide) (by decide) (significant_blanks hb _)
  | object members ih =>
      exact significant_enclosed (by decide) (by decide) (ih (.cons (by decide) s))
  | @element b b' w r hb hb' value ih =>
      rw [List.append_assoc, List.append_assoc, significant_blanks hb, ih (.append hb' hs),
        significant_blanks hb']
  | @member b b' name w r hb hname hb' element ih =>
      rw [List.append_assoc, List.append_assoc, List.append_assoc, List.cons_append,
        significant_blanks hb, significant_name hname hb', significant_blanks hb',
        significant_mark (by decide), ih hs]
      rfl
  | lastElement element ih => exact ih hs
  | elements element more ih ih' =>
      exact significant_separated (ih (.cons (by decide) _)) (ih' hs)
  | lastMember member ih => exact ih hs
  | members member more ih ih' =>
      exact significant_separated (ih (.cons (by decide) _)) (ih' hs)

theorem Derives.kind_ne_error {part : Part} (h : Derives part w r) :
    ∀ lexeme ∈ r, lexeme.kind ≠ .error := by
  have hmark : ∀ c, (mark c).kind ≠ .error := fun _ => by simp [mark]
  induction h with
  | constant | string => exact List.forall_mem_singleton.2 (by simp)
  | number hw =>
      refine List.forall_mem_singleton.2 ?_
      rcases hw.kind_eq with rfl | rfl <;> simp
  | emptyArray | emptyObject =>
      exact List.forall_mem_cons.2 ⟨hmark _, List.forall_mem_singleton.2 (hmark _)⟩
  | array elements ih | object members ih =>
      refine List.forall_mem_cons.2 ⟨hmark _, ?_⟩
      exact List.forall_mem_append.2 ⟨ih, List.forall_mem_singleton.2 (hmark _)⟩
  | element hb hb' value ih => exact ih
  | member hb hname hb' element ih =>
      exact List.forall_mem_cons.2 ⟨by simp, List.forall_mem_cons.2 ⟨hmark _, ih⟩⟩
  | lastElement element ih => exact ih
  | lastMember member ih => exact ih
  | elements element more ih ih' | members member more ih ih' =>
      exact List.forall_mem_append.2 ⟨ih, List.forall_mem_cons.2 ⟨hmark _, ih'⟩⟩

/-- A text of the grammar is read as its tokens, with nothing between them but blanks. -/
theorem lex_derives {text : List Char} {tokens : List Lexeme}
    (h : Derives .element text tokens) :
    (Language.json.lex text).filter (fun lexeme => lexeme.kind ≠ .whitespace) = tokens ∧
      ∀ lexeme ∈ Language.json.lex text, lexeme.kind ≠ .error := by
  have hread : significant text = tokens := by
    have hall := h.significant Follows.nil
    rwa [List.append_nil, significant_nil, List.append_nil] at hall
  refine ⟨hread, fun lexeme hmem => ?_⟩
  by_cases hspace : lexeme.kind = .whitespace
  · rw [hspace]
    decide
  · refine h.kind_ne_error lexeme ?_
    rw [← hread]
    exact List.mem_filter.2 ⟨hmem, by simpa using hspace⟩

/-- A string in front of a colon with blanks between them and the same string in front of a comma, a
number in front of a closing bracket, and escapes. -/
theorem lex_derives_members :
    (Language.json.lex "\x7b\"\\u00e9\" \n: [\"\\u00e9\", -1.5E+3], \"\": 0\x7d ".toList).filter
        (fun lexeme => lexeme.kind ≠ .whitespace) =
      [mark '\x7b', ⟨.nameTag, "\"\\u00e9\"".toList⟩, mark ':', mark '[',
        ⟨.string, "\"\\u00e9\"".toList⟩, mark ',', ⟨.numberFloat, "-1.5E+3".toList⟩, mark ']',
        mark ',', ⟨.nameTag, "\"\"".toList⟩, mark ':', ⟨.numberInteger, "0".toList⟩,
        mark '\x7d'] := by
  have hescape : StringBody ['\x5c', 'u', '0', '0', 'e', '9'] := .unicode (by decide) .nil
  have hnone : Blanks [] := nofun
  have hblank : Blanks [' '] := by simp [Blanks, blanks, AsciiSet.chars, AsciiSet.ofList]
  have hline : Blanks [' ', '\n'] := by simp [Blanks, blanks, AsciiSet.chars, AsciiSet.ofList]
  have hstring : Derives .element "\"\\u00e9\"".toList _ := .element hnone hnone (.string hescape)
  have hfloat : Derives .element " -1.5E+3".toList _ :=
    .element hblank hnone (.number (@Number.mk ['-'] ['1'] ['.', '5'] ['E', '+', '3'] (by decide)
      (.positive (by decide) (by decide) (by decide)) (.digits (.run (by decide) (by decide)))
      (@NumberSyntax.Exponent.digits _ 'E' ['+'] ['3'] (.inr rfl) (by decide)
        (.run (by decide) (by decide)))))
  have harray : Derives .element " [\"\\u00e9\", -1.5E+3]".toList _ :=
    .element hblank hnone (.array (.elements hstring (.lastElement hfloat)))
  have hzero : Derives .element " 0".toList _ :=
    .element hblank hnone (.number (@Number.mk [] ['0'] [] [] (by decide) .zero .none .none))
  have hmembers : Derives .members "\"\\u00e9\" \n: [\"\\u00e9\", -1.5E+3], \"\": 0".toList _ :=
    .members (.member hnone hescape hline harray) (.lastMember (.member hblank .nil hnone hzero))
  exact (lex_derives (.element hnone hblank (.object hmembers))).1

end Highlight.Json
