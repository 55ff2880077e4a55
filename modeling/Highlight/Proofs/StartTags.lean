import Highlight.Proofs.Dispatch
import Highlight.Proofs.RawTextBodies

/-!
# Start tags are read back

What a letter begins inside of a tag depends on whether a value is next. If one is, the letter is
part of the value, whatever name it looks like, and so is an equals sign. Otherwise it begins the
name of an attribute. So an equals sign has to be followed by a value, white space or none between
them, and a name must not go on into what is behind it. The grammar below has both, and each part of
a tag leaves the lexer where the next part expects it: names and operators by what they set, white
space by leaving alone what is set already, and values by what ends them.

That a value without quotes ends in front of white space is true of four characters only. Vertical
tabs and form feeds are white space everywhere else in a tag, and they are no end of a value: where
one stands in it, whatever attribute comes behind is part of the value as well.
-/

namespace Highlight

theorem behind_singleton {mark : Char} {body : List Char} (h : mark ∉ body) (rest : List Char) :
    behind [mark] (body ++ mark :: rest) = rest := by
  induction body with
  | nil =>
      have hmark : [mark].isPrefixOf? (mark :: rest) = some rest := isPrefixOf?_append [mark] rest
      rw [List.nil_append, behind, hmark]
  | cons c body ih =>
      obtain ⟨hne, hbody⟩ := not_or.1 (List.mem_cons.not.1 h)
      rw [List.cons_append, behind, isPrefixOf?_cons_of_ne hne]
      exact ih hbody

namespace Html

variable {raw : Option RawText} {valueNext empty closing : Bool} {c : Char}
  {w name value space text rest : List Char} {lexeme : Lexeme}
  {lexemes front inside back : List Lexeme}

/-- The sign in front of a value. -/
def equals : Lexeme := ⟨.operator, ['=']⟩

/-- White space that both sets attributes apart and ends a value without quotes. -/
def spaces : AsciiSet := .chars "\t\n\r "

/-- What may stand behind an attribute. -/
def attributeEnd : AsciiSet := spaces.union (.chars ">")

/-- What is not in a value without quotes. -/
def unquotedEnd : AsciiSet := AsciiSet.whitespace.union (.chars ">\"\x27")

/-- A name, given what may start one and the ASCII characters that may go on one. -/
inductive Name (start set : AsciiSet) : List Char → Prop where
  | run {c : Char} {w : List Char} (hc : start.has c = true)
      (hw : ∀ d ∈ w, continuesWord set d = true) : Name start set (c :: w)

/-- White space, of which there may be none, as it is read. -/
inductive Spacing : List Lexeme → Prop where
  | none : Spacing []
  | some {space : List Char} (hne : space ≠ []) (h : ∀ c ∈ space, spaces.has c = true) :
      Spacing [⟨.whitespace, space⟩]

inductive Value : List Char → Prop where
  | quoted {quote : Char} {body : List Char} (hquote : quote = '\x22' ∨ quote = '\x27')
      (hbody : quote ∉ body) : Value (quote :: (body ++ [quote]))
  | unquoted {value : List Char} (hne : value ≠ []) (hslash : value.head? ≠ some '/')
      (h : ∀ c ∈ value, unquotedEnd.has c = false) : Value value

inductive Attribute : List Lexeme → Prop where
  | bare {name : List Char} (hname : Name attributeStart attributeName name) :
      Attribute [⟨.nameAttribute, name⟩]
  | valued {name value : List Char} {front back : List Lexeme}
      (hname : Name attributeStart attributeName name) (hfront : Spacing front)
      (hback : Spacing back) (hvalue : Value value) :
      Attribute (⟨.nameAttribute, name⟩ ::
        (front ++ equals :: (back ++ [⟨.string, value⟩])))

inductive Attributes : List Lexeme → Prop where
  | nil : Attributes []
  | cons {space lexemes more : List Lexeme} (hspace : Spacing space) (hne : space ≠ [])
      (h : Attribute lexemes) (hmore : Attributes more) : Attributes (space ++ (lexemes ++ more))

/-- A tag that opens an element whose body is markup. In front of the slash of an empty tag there is
white space, by which it is told from the end of a value. -/
inductive StartTag : List Lexeme → Prop where
  | tag {name : List Char} {attributes space : List Lexeme} {empty : Bool}
      (hname : Name .letters .markupName name)
      (hraw : ∀ raw : RawText, name.map Char.toLower ≠ raw.tag) (h : Attributes attributes)
      (hspace : Spacing space) (hempty : empty = true → space ≠ []) :
      StartTag (opening false :: ⟨.nameTag, name⟩ :: (attributes ++ (space ++ [ending empty])))

theorem not_valueEnd (h : unquotedEnd.has c = false) : (!valueEnd.has c) = true := by
  have hends : ∀ d ∈ valueEnd.members, unquotedEnd.has d = true := by decide
  rw [Bool.not_eq_true', Bool.eq_false_iff]
  intro hend
  rw [hends c (AsciiSet.mem_members.2 hend)] at h
  cases h

theorem stepTag_space (h : AsciiSet.whitespace.has c = true) (s : List Char) :
    stepTag raw valueNext c s =
      ⟨.whitespace, s.dropWhile AsciiSet.whitespace.has, .tag raw valueNext⟩ := by
  rw [stepTag, if_pos h]

theorem stepTag_quote (h : c = '\x22' ∨ c = '\x27') (s : List Char) :
    stepTag raw valueNext c s = ⟨.string, behind [c] s, .tag raw false⟩ := by
  rcases h with rfl | rfl
  · rfl
  · rfl

/-- What is neither white space nor a quote nor the end of the tag. -/
theorem stepTag_plain (hc : unquotedEnd.has c = false) {s : List Char}
    (hslash : ¬ (c = '/' ∧ s.head? = some '>')) :
    stepTag raw valueNext c s =
      if ¬ valueNext ∧ attributeStart.has c then
        ⟨.nameAttribute, behindWord attributeName s, .tag raw false⟩
      else if ¬ valueNext ∧ c = '=' then ⟨.operator, s, .tag raw true⟩
      else ⟨.string, valueRest s, .tag raw false⟩ := by
  obtain ⟨hspace, hmark⟩ := Bool.or_eq_false_iff.1 hc
  have hend : c ≠ '>' := fun h => absurd hmark (by rw [h]; decide)
  have hquote : ¬ (c = '\x22' ∨ c = '\x27') := by
    rintro (rfl | rfl) <;> exact absurd hmark (by decide)
  rw [stepTag, if_neg (by rw [hspace]; decide), if_neg hend, if_neg hslash, if_neg hquote]

theorem Spacing.stops {p : Char → Bool} (h : Spacing lexemes)
    (hp : ∀ c ∈ spaces.members, p c = false) (hrest : Stops p rest) :
    Stops p (lexemes.flatMap Lexeme.text ++ rest) := by
  cases h with
  | none => exact hrest
  | @some space hne h =>
      obtain ⟨c, t, rfl⟩ := List.exists_cons_of_ne_nil hne
      exact .cons (hp c (AsciiSet.mem_members.2 (h c List.mem_cons_self))) _

theorem Spacing.readsBack (h : Spacing lexemes) (hrest : Stops AsciiSet.whitespace.has rest) :
    lexer.ReadsBack (.tag raw valueNext) lexemes (.tag raw valueNext) rest := by
  have hspaces : ∀ c ∈ spaces.members, AsciiSet.whitespace.has c = true := by decide
  cases h with
  | none => exact .nil
  | @some space hne h =>
      have hall : ∀ c ∈ space, AsciiSet.whitespace.has c = true := fun c hc =>
        hspaces c (AsciiSet.mem_members.2 (h c hc))
      obtain ⟨c, t, rfl⟩ := List.exists_cons_of_ne_nil hne
      obtain ⟨hc, ht⟩ := List.forall_mem_cons.1 hall
      refine .of_step ((stepTag_space hc (t ++ rest)).trans ?_)
      rw [hrest.dropWhile_append ht]

theorem readsBack_name (hname : Name attributeStart attributeName w)
    (hrest : Stops (continuesWord attributeName) rest) :
    lexer.ReadsBack (.tag raw false) [⟨.nameAttribute, w⟩] (.tag raw false) rest := by
  cases hname with
  | @run c w hc hw =>
      have hplain := unquotedEnd.has_eq_false hc (by decide)
      have hslash : c ≠ '/' := ne_of_class hc (by decide)
      have hbehind : behindWord attributeName (w ++ rest) = rest := hrest.dropWhile_append hw
      refine .of_step ((stepTag_plain hplain fun h => hslash h.1).trans ?_)
      rw [if_pos ⟨Bool.false_ne_true, hc⟩, hbehind]

theorem readsBack_equals (rest : List Char) :
    lexer.ReadsBack (.tag raw false) [equals] (.tag raw true) rest :=
  .of_step rfl

theorem Value.head (h : Value value) :
    ∃ c t, value = c :: t ∧ AsciiSet.whitespace.has c = false := by
  cases h with
  | @quoted quote body hquote hbody =>
      refine ⟨quote, _, rfl, ?_⟩
      rcases hquote with rfl | rfl <;> decide
  | unquoted hne hslash h =>
      obtain ⟨c, t, rfl⟩ := List.exists_cons_of_ne_nil hne
      exact ⟨c, t, rfl, (Bool.or_eq_false_iff.1 (h c List.mem_cons_self)).1⟩

theorem Value.readsBack (h : Value value) (hrest : Stops (fun c => !valueEnd.has c) rest) :
    lexer.ReadsBack (.tag raw true) [⟨.string, value⟩] (.tag raw false) rest := by
  cases h with
  | @quoted quote body hquote hbody =>
      refine .of_step ((stepTag_quote hquote _).trans ?_)
      rw [List.append_assoc, List.singleton_append, behind_singleton hbody]
  | unquoted hne hslash h =>
      obtain ⟨c, t, rfl⟩ := List.exists_cons_of_ne_nil hne
      obtain ⟨hc, ht⟩ := List.forall_mem_cons.1 h
      have hslash : c ≠ '/' := fun h => hslash (congrArg some h)
      refine .of_step ((stepTag_plain hc fun h => hslash h.1).trans ?_)
      rw [if_neg fun h => h.1 rfl, if_neg fun h => h.1 rfl, valueRest,
        hrest.dropWhile_append fun d hd => not_valueEnd (ht d hd)]

/-- Whether a text is at its end or goes on with what may stand behind an attribute. -/
def AtEnd (s : List Char) : Prop :=
  ∀ c ∈ s.head?, attributeEnd.has c = true

theorem AtEnd.stops {p : Char → Bool} {s : List Char} (h : AtEnd s)
    (hp : ∀ c ∈ attributeEnd.members, p c = false) : Stops p s :=
  fun c hc => hp c (AsciiSet.mem_members.2 (h c hc))

theorem Spacing.atEnd (h : Spacing lexemes) (hrest : lexemes = [] → AtEnd rest) :
    AtEnd (lexemes.flatMap Lexeme.text ++ rest) := by
  have hspaces : ∀ c ∈ spaces.members, attributeEnd.has c = true := by decide
  cases h with
  | none => exact hrest rfl
  | @some space hne h =>
      obtain ⟨c, t, rfl⟩ := List.exists_cons_of_ne_nil hne
      rintro d hd
      cases hd
      exact hspaces c (AsciiSet.mem_members.2 (h c List.mem_cons_self))

theorem Attribute.stops (h : Attribute lexemes) (rest : List Char) :
    Stops AsciiSet.whitespace.has (lexemes.flatMap Lexeme.text ++ rest) := by
  have hstart {c : Char} (hc : attributeStart.has c = true) : AsciiSet.whitespace.has c = false :=
    AsciiSet.whitespace.has_eq_false hc (by decide)
  cases h with
  | bare hname =>
      cases hname with
      | run hc => exact .cons (hstart hc) _
  | valued hname =>
      cases hname with
      | run hc => exact .cons (hstart hc) _

theorem Attribute.readsBack (h : Attribute lexemes) (hrest : AtEnd rest) :
    lexer.ReadsBack (.tag raw false) lexemes (.tag raw false) rest := by
  cases h with
  | bare hname => exact readsBack_name hname (hrest.stops (by decide))
  | @valued name value front back hname hfront hback hvalue =>
      have hsign {p : Char → Bool} (hp : p '=' = false) :
          Stops p ((equals :: (back ++ [⟨.string, value⟩])).flatMap Lexeme.text ++ rest) :=
        .cons hp _
      have hstop : Stops (continuesWord attributeName)
          ((front ++ equals :: (back ++ [⟨.string, value⟩])).flatMap Lexeme.text ++ rest) := by
        rw [List.flatMap_append, List.append_assoc]
        exact hfront.stops (by decide) (hsign (by decide))
      have hspace : Stops AsciiSet.whitespace.has
          ([⟨.string, value⟩].flatMap Lexeme.text ++ rest) := by
        obtain ⟨c, t, rfl, hc⟩ := hvalue.head
        exact .cons hc _
      have hread : lexer.ReadsBack (.tag raw true) [⟨.string, value⟩] (.tag raw false) rest :=
        hvalue.readsBack (hrest.stops (by decide))
      have hread := (readsBack_equals _).append ((hback.readsBack hspace).append hread)
      exact (readsBack_name hname hstop).append ((hfront.readsBack (hsign (by decide))).append hread)

theorem Attributes.atEnd (h : Attributes lexemes) (hrest : AtEnd rest) :
    AtEnd (lexemes.flatMap Lexeme.text ++ rest) := by
  cases h with
  | nil => exact hrest
  | cons hspace hne h hmore =>
      rw [List.flatMap_append, List.append_assoc]
      exact hspace.atEnd fun hnil => absurd hnil hne

theorem Attributes.readsBack (h : Attributes lexemes) (hrest : AtEnd rest) :
    lexer.ReadsBack (.tag raw false) lexemes (.tag raw false) rest := by
  induction h with
  | nil => exact .nil
  | @cons space lexemes more hspace hne h hmore ih =>
      have hstop : Stops AsciiSet.whitespace.has
          ((lexemes ++ more).flatMap Lexeme.text ++ rest) := by
        rw [List.flatMap_append, List.append_assoc]
        exact h.stops _
      exact (hspace.readsBack hstop).append ((h.readsBack (hmore.atEnd hrest)).append ih)

/-- In front of a letter `<` opens a tag. -/
theorem stepContent_letter (hc : AsciiSet.letters.has c = true) (s : List Char) :
    stepContent '<' (c :: s) = ⟨.punctuation, c :: s, .tagName false⟩ := by
  have hslash : c ≠ '/' := ne_of_class hc (by decide)
  have hopen : stepTagOpen (c :: s) = ⟨.punctuation, c :: s, .tagName false⟩ := by
    rw [stepTagOpen, behindSlash, if_neg hslash]
    exact if_pos hc
  have hletter : (c :: s).head?.any AsciiSet.letters.has = true := hc
  have hrules : Rule.firstOf contentRules ('<' :: c :: s) = none :=
    (firstOf_contentRules fun _ => hletter).trans rfl
  rw [stepContent, hrules]
  exact hopen

theorem readsBack_opening (hname : Name .letters .markupName w) (more : List Lexeme)
    (rest : List Char) : lexer.ReadsBack .content [opening false] (.tagName false)
      ((⟨.nameTag, w⟩ :: more).flatMap Lexeme.text ++ rest) := by
  cases hname with
  | run hc hw => exact .of_step (stepContent_letter hc _)

theorem readsBack_tagName (hname : Name .letters .markupName w)
    (hrest : Stops (continuesWord .markupName) rest) :
    lexer.ReadsBack (.tagName false) [⟨.nameTag, w⟩] (.tag (RawText.ofTag? w) false) rest := by
  cases hname with
  | @run c w hc hw =>
      have hbehind : behindWord .markupName (w ++ rest) = rest := hrest.dropWhile_append hw
      refine .of_step ((stepTagName_eq false _).trans ?_)
      rw [hbehind, ← List.cons_append, before_append]
      rfl

theorem readsBack_ending (rest : List Char) :
    lexer.ReadsBack (.tag none false) [ending empty] .content rest := by
  cases empty with
  | false => exact .of_step rfl
  | true => exact .of_step rfl

/-- A start tag is read back in front of any text, each part of it as the lexeme it is, and behind
it comes content. -/
theorem reads_startTag (h : StartTag lexemes) (rest : List Char) :
    lexer.Reads .content (lexemes.flatMap Lexeme.text ++ rest) lexemes .content rest := by
  cases h with
  | @tag name attributes space empty hname hraw h hspace hempty =>
      have hnone : RawText.ofTag? name = none := by
        rw [Option.eq_none_iff_forall_ne_some]
        exact fun raw hsome => hraw raw (ofTag?_eq_some_iff.1 hsome)
      have hclose : AtEnd ((space ++ [ending empty]).flatMap Lexeme.text ++ rest) := by
        rw [List.flatMap_append, List.append_assoc]
        refine hspace.atEnd fun hnil => ?_
        cases empty with
        | false => exact fun c hc => by cases hc; decide
        | true => exact absurd hnil (hempty rfl)
      have hmark : Stops AsciiSet.whitespace.has
          ([ending empty].flatMap Lexeme.text ++ rest) := by
        cases empty <;> exact .cons (by decide) _
      have hinside : lexer.ReadsBack (.tag none false) (attributes ++ (space ++ [ending empty]))
          .content rest :=
        (h.readsBack hclose).append ((hspace.readsBack hmark).append (readsBack_ending rest))
      have hstop : Stops (continuesWord .markupName)
          ((attributes ++ (space ++ [ending empty])).flatMap Lexeme.text ++ rest) := by
        rw [List.flatMap_append, List.append_assoc]
        exact (h.atEnd hclose).stops (by decide)
      have hread := readsBack_tagName hname hstop
      rw [hnone] at hread
      exact (readsBack_opening hname _ rest).append (hread.append hinside)

/-- A value that is written like a name, one with an equals sign and slashes, a quote between
quotes, and a name without a value. -/
theorem reads_startTag_values :
    lexer.Reads .content "<a-1 b\t=\nc _:@.==é/ d='\"' e />'".toList
      [opening false, ⟨.nameTag, "a-1".toList⟩, ⟨.whitespace, [' ']⟩, ⟨.nameAttribute, ['b']⟩,
        ⟨.whitespace, ['\t']⟩, equals, ⟨.whitespace, ['\n']⟩, ⟨.string, ['c']⟩,
        ⟨.whitespace, [' ']⟩, ⟨.nameAttribute, "_:@.".toList⟩, equals, ⟨.string, "=é/".toList⟩,
        ⟨.whitespace, [' ']⟩, ⟨.nameAttribute, ['d']⟩, equals, ⟨.string, "'\"'".toList⟩,
        ⟨.whitespace, [' ']⟩, ⟨.nameAttribute, ['e']⟩, ⟨.whitespace, [' ']⟩, ending true]
      .content ['\x27'] := by
  have hblank : Spacing [⟨.whitespace, [' ']⟩] := .some (by decide) (by decide)
  have hname {c : Char} (hc : attributeStart.has c = true) : Name attributeStart attributeName [c] :=
    .run hc (List.forall_mem_nil _)
  have hspaced : Attribute [⟨.nameAttribute, ['b']⟩, ⟨.whitespace, ['\t']⟩, equals,
      ⟨.whitespace, ['\n']⟩, ⟨.string, ['c']⟩] :=
    .valued (hname (by decide)) (.some (by decide) (by decide)) (.some (by decide) (by decide))
      (.unquoted (by decide) (by decide) (by decide))
  have hsigns : Attribute [⟨.nameAttribute, "_:@.".toList⟩, equals, ⟨.string, "=é/".toList⟩] :=
    .valued (@Name.run _ _ '_' [':', '@', '.'] (by decide) (by decide)) .none .none
      (.unquoted (by decide) (by decide) (by decide))
  have hquote : Attribute [⟨.nameAttribute, ['d']⟩, equals, ⟨.string, "'\"'".toList⟩] :=
    .valued (hname (by decide)) .none .none (@Value.quoted '\x27' ['\x22'] (.inr rfl) (by decide))
  have hbare : Attribute [⟨.nameAttribute, ['e']⟩] := .bare (hname (by decide))
  have hne {space : List Char} : [(⟨.whitespace, space⟩ : Lexeme)] ≠ [] := List.cons_ne_nil _ _
  have hattributes := Attributes.cons hblank hne hspaced (.cons hblank hne hsigns
    (.cons hblank hne hquote (.cons hblank hne hbare .nil)))
  have htag : Name .letters .markupName "a-1".toList :=
    @Name.run _ _ 'a' ['-', '1'] (by decide) (by decide)
  have hraw (raw : RawText) : "a-1".toList.map Char.toLower ≠ raw.tag := by
    cases raw <;> decide
  exact reads_startTag (@StartTag.tag _ _ _ true htag hraw hattributes hblank fun _ => hne) ['\x27']

/-! ## Values without quotes

The grammar above has such a value end where it should. Of any value, in any run, it can be said
where it does end: in front of the first of the characters that end one. Vertical tabs and form
feeds are not among these, although they are white space to all else that is read inside of a tag.
-/

/-- Behind the name of a tag its inside is read. -/
theorem exists_run_of_nameTag (h : lexer.lex text = front ++ ⟨.nameTag, w⟩ :: back) :
    ∃ raw rest, lexer.run (.tag raw false) rest = back := by
  obtain ⟨state, s, hreads, hrun⟩ := Lexer.exists_reads h
  have hplain := plain_of_visits (hreads.visits .start)
  obtain ⟨c, t, rfl, hname, -⟩ := Lexer.exists_step_of_run_eq hrun
  obtain ⟨closing, rfl⟩ := exists_tagName_of_kind hplain (congrArg Lexeme.kind hname).symm
  obtain ⟨rest, hrest⟩ := exists_run_of_name hrun
  exact ⟨_, rest, hrest⟩

/-- A step that takes a value without quotes. -/
theorem stepTag_of_string {s : List Char} (hkind : (stepTag raw valueNext c s).kind = .string)
    (hquote : ¬ (c = '\x22' ∨ c = '\x27')) :
    stepTag raw valueNext c s = ⟨.string, valueRest s, .tag raw false⟩ ∧
      unquotedEnd.has c = false := by
  have hmarks : ∀ d ∈ (AsciiSet.chars ">\"\x27").members, d = '>' ∨ d = '\x22' ∨ d = '\x27' := by
    decide
  by_cases hspace : AsciiSet.whitespace.has c = true
  · rw [stepTag_space hspace] at hkind
    cases hkind
  · by_cases hend : c = '>'
    · subst hend
      cases hkind
    · have hplain : unquotedEnd.has c = false := by
        refine Bool.or_eq_false_iff.2 ⟨Bool.eq_false_iff.2 hspace, Bool.eq_false_iff.2 fun hc => ?_⟩
        exact (hmarks c (AsciiSet.mem_members.2 hc)).elim hend hquote
      by_cases hslash : c = '/' ∧ s.head? = some '>'
      · rw [stepTag, if_neg hspace, if_neg hend, if_pos hslash] at hkind
        cases hkind
      · rw [stepTag_plain hplain hslash] at hkind ⊢
        split at hkind
        · cases hkind
        · next hname =>
            split at hkind
            · cases hkind
            · next hsign => exact ⟨by rw [if_neg hname, if_neg hsign], hplain⟩

/-- Of white space, vertical tabs and form feeds are no end of a value. -/
theorem takeWhile_not_valueEnd_iff (s : List Char) :
    let value := s.takeWhile fun c => !valueEnd.has c
    (∀ c ∈ value, AsciiSet.whitespace.has c = false) ↔ '\x0b' ∉ value ∧ '\x0c' ∉ value := by
  have hspaces : ∀ c ∈ AsciiSet.whitespace.members,
      valueEnd.has c = true ∨ c = '\x0b' ∨ c = '\x0c' := by decide
  intro value
  constructor
  · intro hall
    exact ⟨fun h => absurd (hall _ h) (by decide), fun h => absurd (hall _ h) (by decide)⟩
  · rintro ⟨htab, hfeed⟩ c hc
    rw [Bool.eq_false_iff]
    intro hspace
    rcases hspaces c (AsciiSet.mem_members.2 hspace) with hend | rfl | rfl
    · have hnot := List.mem_takeWhile_imp hc
      rw [hend] at hnot
      cases hnot
    · exact htab hc
    · exact hfeed hc

/-- Inside of a tag a value that does not begin with a quote goes on to the next of the characters
that end one. So white space is in it only if it is a vertical tab or a form feed. -/
theorem lexRange_unquoted (text : List Char) (range : ByteRange)
    (h : Language.html.lexRange text range =
      front ++ ⟨.nameTag, w⟩ :: (inside ++ ⟨.string, value⟩ :: back))
    (hinside : ∀ lexeme ∈ inside, lexeme.kind ≠ .punctuation)
    (hquote : value.head? ≠ some '\x22' ∧ value.head? ≠ some '\x27') :
    value = (value ++ back.flatMap Lexeme.text).takeWhile (fun c => !valueEnd.has c) ∧
      ((∀ c ∈ value, AsciiSet.whitespace.has c = false) ↔ '\x0b' ∉ value ∧ '\x0c' ∉ value) := by
  rw [Language.lexRange_eq_lex] at h
  obtain ⟨raw, u, hrun⟩ := exists_run_of_nameTag h
  obtain ⟨state, u, hreads, hrun⟩ := Lexer.exists_reads hrun
  obtain ⟨valueNext, rfl⟩ := exists_tag_of_reads hreads hinside
  obtain ⟨c, s, rfl, hvalue, hback⟩ := Lexer.exists_step_of_run_eq hrun
  obtain ⟨taken, -, htaken⟩ := lexer.exists_taken (.tag raw valueNext) c s
  have hhead : value = c :: taken := (congrArg Lexeme.text hvalue).trans htaken
  have hc : ¬ (c = '\x22' ∨ c = '\x27') := by
    rw [hhead] at hquote
    exact not_or.2 ⟨fun h => hquote.1 (congrArg some h), fun h => hquote.2 (congrArg some h)⟩
  obtain ⟨hstep, hplain⟩ := stepTag_of_string (congrArg Lexeme.kind hvalue).symm hc
  have hstep : lexer.step (.tag raw valueNext) c s = _ := hstep
  rw [hstep] at hvalue hback
  have htext : value = (c :: s).takeWhile fun c => !valueEnd.has c := by
    rw [List.takeWhile_cons_of_pos (p := fun c => !valueEnd.has c) (not_valueEnd hplain)]
    exact (congrArg Lexeme.text hvalue).trans (before_cons_dropWhile _ c s)
  have hrest : value ++ back.flatMap Lexeme.text = c :: s := by
    have hsplit := @List.takeWhile_append_dropWhile _ (fun c => !valueEnd.has c) (c :: s)
    rw [List.dropWhile_cons_of_pos (p := fun c => !valueEnd.has c) (not_valueEnd hplain),
      ← htext] at hsplit
    rw [← hback, Lexer.flatMap_text_run]
    exact hsplit
  have hcut : value = (value ++ back.flatMap Lexeme.text).takeWhile fun c => !valueEnd.has c := by
    rw [hrest]
    exact htext
  refine ⟨hcut, ?_⟩
  rw [hcut]
  exact takeWhile_not_valueEnd_iff _

/-- An equals sign at the front of a value and a slash in it do not end it, and no more does a
vertical tab. -/
theorem lexRange_unquoted_verticalTab :
    let back := [⟨.whitespace, [' ']⟩, ⟨.nameAttribute, ['d']⟩, ending false]
    Language.html.lexRange "é<a b==é/\x0bc d>".toList ⟨2, 100⟩ =
        opening false :: ⟨.nameTag, ['a']⟩ :: ⟨.whitespace, [' ']⟩ :: ⟨.nameAttribute, ['b']⟩ ::
          equals :: ⟨.string, "=é/\x0bc".toList⟩ :: back ∧
      "=é/\x0bc".toList =
        ("=é/\x0bc".toList ++ back.flatMap Lexeme.text).takeWhile fun c => !valueEnd.has c := by
  intro back
  have hlex : Language.html.lexRange "é<a b==é/\x0bc d>".toList ⟨2, 100⟩ =
      [opening false] ++ ⟨.nameTag, ['a']⟩ :: ([⟨.whitespace, [' ']⟩, ⟨.nameAttribute, ['b']⟩,
        equals] ++ ⟨.string, "=é/\x0bc".toList⟩ :: back) := by
    decide +kernel
  exact ⟨hlex, (lexRange_unquoted _ _ hlex (by decide) (by decide)).1⟩

/-- A form feed does not set an attribute apart from the value in front of it. -/
theorem lex_value_formFeed :
    Language.html.lex "<a b=c\x0cd=e>".toList =
        [opening false, ⟨.nameTag, ['a']⟩, ⟨.whitespace, [' ']⟩, ⟨.nameAttribute, ['b']⟩, equals,
          ⟨.string, "c\x0cd=e".toList⟩, ending false] ∧
      AsciiSet.whitespace.has '\x0c' = true := by
  decide +kernel

end Html

end Highlight
