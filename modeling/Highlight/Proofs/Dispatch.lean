import Mathlib.Data.List.TakeWhile
import Highlight.Comment
import Highlight.Lexer
import Highlight.Operator
import Highlight.Word

/-!
# Reading back what was written

Where one word ends and the next begins is decided by classes of characters: a run goes on while the
characters are of its class. So all there is to know about the text behind a word is which classes
its first character is not of, and that is what `Stops` says. White space is of hardly any of them,
and a word with white space behind it, or nothing, stands in front of a `Gap`.

Which rule of a list reads a word is decided by its first character or two. Classes are small, and
that two of them have no character in common is found by going through the members of one.
-/

namespace Highlight

/-! What is to be shown of all characters of a list is decided by going through the list, however
many characters there are that it might be asked of. -/

instance (priority := 2000) decidableForallMemList (cs : List Char) (p : Char → Prop)
    [DecidablePred p] : Decidable (∀ c ∈ cs, p c) :=
  List.decidableBAll p cs

instance (priority := 2000) decidableForallMemOption (o : Option Char) (p : Char → Prop)
    [DecidablePred p] : Decidable (∀ c ∈ o, p c) :=
  decidable_of_iff (∀ c ∈ o.toList, p c) (by simp only [Option.mem_toList, Option.mem_def])

/-- Whether a text does not go on with a character of a class. -/
def Stops (p : Char → Bool) (s : List Char) : Prop :=
  ∀ c ∈ s.head?, p c = false

namespace Stops

variable {p q : Char → Bool} {c : Char} {w s : List Char}

theorem nil (p : Char → Bool) : Stops p [] := nofun

theorem cons (h : p c = false) (s : List Char) : Stops p (c :: s) := by
  rintro d hd
  cases hd
  exact h

theorem head (h : Stops p (c :: s)) : p c = false := h c rfl

theorem mono (h : Stops p s) (hqp : ∀ c, q c = true → p c = true) : Stops q s := by
  intro c hc
  have hp := h c hc
  rw [Bool.eq_false_iff]
  intro hq
  rw [hqp c hq] at hp
  cases hp

theorem append (hw : ∀ c ∈ w.head?, p c = false) (h : Stops p s) : Stops p (w ++ s) := by
  cases w with
  | nil => exact h
  | cons c w => exact .cons (hw c rfl) (w ++ s)

theorem dropWhile (p : Char → Bool) (s : List Char) : Stops p (s.dropWhile p) := by
  intro c hc
  have hnot := List.head?_dropWhile_not p s
  rw [Option.mem_def.1 hc] at hnot
  exact hnot

theorem dropWhile_eq (h : Stops p s) : s.dropWhile p = s := by
  cases s with
  | nil => rfl
  | cons c s => exact List.dropWhile_cons_of_neg (by rw [h.head]; decide)

theorem takeWhile_eq (h : Stops p s) : s.takeWhile p = [] := by
  cases s with
  | nil => rfl
  | cons c s => exact List.takeWhile_cons_of_neg (by rw [h.head]; decide)

theorem dropWhile_append (h : Stops p s) (hw : ∀ c ∈ w, p c = true) :
    (w ++ s).dropWhile p = s := by
  rw [List.dropWhile_append_of_pos hw, h.dropWhile_eq]

theorem takeWhile_append (h : Stops p s) (hw : ∀ c ∈ w, p c = true) :
    (w ++ s).takeWhile p = w := by
  rw [List.takeWhile_append_of_pos hw, h.takeWhile_eq, List.append_nil]

end Stops

namespace AsciiSet

variable {set : AsciiSet} {p : Char → Bool} {c : Char}

/-- A set that is spelt out is gone through by its spelling, without a look at the rest of ASCII. -/
theorem forall_of_spelt {p : Char → Prop} {s : String} (hset : set.has = s.toList.contains)
    (hp : ∀ c ∈ s.toList, p c) : ∀ c, set.has c = true → p c := by
  intro c hc
  rw [hset] at hc
  exact hp c (List.contains_iff_mem.1 hc)

theorem mem_members : c ∈ set.members ↔ set.has c = true := by
  rw [members, List.mem_filter, List.mem_map]
  constructor
  · exact And.right
  · intro h
    exact ⟨⟨c.toNat, List.mem_range.2 (set.ascii c h), Char.ofNat_toNat c⟩, h⟩

/-- A character of another class is no member of a set, if the members are not of that class. -/
theorem has_eq_false (set : AsciiSet) (hc : p c = true) (h : ∀ d ∈ set.members, p d = false) :
    set.has c = false := by
  rw [Bool.eq_false_iff]
  intro hhas
  rw [h c (mem_members.2 hhas)] at hc
  cases hc

end AsciiSet

/-- A character of a class is none that is not. -/
theorem ne_of_class {p : Char → Bool} {c d : Char} (hc : p c = true) (hd : p d = false) :
    c ≠ d := by
  rintro rfl
  rw [hc] at hd
  cases hd

/-- Whether a text is at its end or goes on with white space. -/
def Gap (s : List Char) : Prop :=
  ∀ c ∈ s.head?, AsciiSet.whitespace.has c = true

theorem gap_nil : Gap [] := nofun

theorem gap_cons {c : Char} (h : AsciiSet.whitespace.has c = true) (s : List Char) :
    Gap (c :: s) := by
  rintro d hd
  cases hd
  exact h

/-- Whether a text begins with something else than white space. -/
def Visible (s : List Char) : Prop :=
  ∃ c t, s = c :: t ∧ AsciiSet.whitespace.has c = false

theorem Visible.stops_append {s : List Char} (h : Visible s) (t : List Char) :
    Stops AsciiSet.whitespace.has (s ++ t) := by
  obtain ⟨c, s, rfl, hc⟩ := h
  exact .cons hc (s ++ t)

theorem Visible.ne_nil {s : List Char} (h : Visible s) : s ≠ [] := by
  obtain ⟨c, s, rfl, -⟩ := h
  exact List.cons_ne_nil c s

namespace Gap

variable {p : Char → Bool} {marker word s : List Char}

theorem stops (h : Gap s) (hp : ∀ c ∈ AsciiSet.whitespace.members, p c = false) : Stops p s :=
  fun c hc => hp c (AsciiSet.mem_members.2 (h c hc))

theorem head?_ne_point (h : Gap s) : s.head? ≠ some '.' :=
  fun hs => absurd (h '.' hs) (by decide)

/-- A marker without white space does not reach into a gap. -/
theorem isPrefixOf_append (h : Gap s) (hmarker : ∀ c ∈ marker, AsciiSet.whitespace.has c = false) :
    marker.isPrefixOf (word ++ s) = marker.isPrefixOf word := by
  induction marker generalizing word with
  | nil => rw [List.isPrefixOf, List.isPrefixOf]
  | cons m marker ih =>
      rw [List.forall_mem_cons] at hmarker
      cases word with
      | cons c word => rw [List.cons_append, List.isPrefixOf, List.isPrefixOf, ih hmarker.2]
      | nil =>
          cases s with
          | nil => rfl
          | cons c s =>
              have hne : m ≠ c := by
                rintro rfl
                rw [h m rfl] at hmarker
                cases hmarker.1
              show (m == c && marker.isPrefixOf s) = false
              rw [beq_eq_false_iff_ne.2 hne, Bool.false_and]

end Gap

theorem dropBytes_append_of_ascii {word : List Char} (h : ∀ c ∈ word, c.toNat < 128)
    (s : List Char) : dropBytes word.length (word ++ s) = s := by
  induction word with
  | nil => exact dropBytes_zero s
  | cons c word ih =>
      rw [List.forall_mem_cons] at h
      rw [List.cons_append, List.length_cons, dropBytes_cons_of_ascii h.1 (Nat.succ_pos _)]
      exact ih h.2

theorem byteSize_of_ascii {word : List Char} (h : ∀ c ∈ word, c.toNat < 128) :
    byteSize word = word.length := by
  induction word with
  | nil => rfl
  | cons c word ih =>
      rw [List.forall_mem_cons] at h
      rw [byteSize_cons, utf8Size_of_ascii h.1, ih h.2, List.length_cons, Nat.add_comm]

theorem isPrefixOf?_eq_none {marker s : List Char} (h : ¬ marker <+: s) :
    marker.isPrefixOf? s = none := by
  cases hs : marker.isPrefixOf? s with
  | none => rfl
  | some rest => exact absurd ⟨rest, (eq_append_of_isPrefixOf? hs).symm⟩ h

theorem isPrefixOf?_cons_of_ne {m c : Char} {marker s : List Char} (h : m ≠ c) :
    (m :: marker).isPrefixOf? (c :: s) = none :=
  isPrefixOf?_eq_none fun hprefix => h (List.cons_prefix_cons.1 hprefix).1

namespace Rule

variable {rule : Rule} {rules : List Rule} {s : List Char} {r : Match}

theorem firstOf_nil (s : List Char) : firstOf [] s = none := rfl

theorem firstOf_cons_of_some (h : rule s = some r) : firstOf (rule :: rules) s = some r := by
  rw [firstOf, List.findSome?_cons, h]

theorem firstOf_cons_of_none (h : rule s = none) :
    firstOf (rule :: rules) s = firstOf rules s := by
  rw [firstOf, List.findSome?_cons, h]
  rfl

variable {kind : Kind} {set : AsciiSet} {c : Char} {w rest : List Char}

theorem run_of_notMem (h : set.has c = false) : run kind set (c :: s) = none := by
  rw [run, if_neg (by rw [h]; decide)]

theorem run_append (hne : w ≠ []) (hw : ∀ c ∈ w, set.has c = true) (hrest : Stops set.has rest) :
    run kind set (w ++ rest) = some ⟨kind, rest⟩ := by
  obtain ⟨c, t, rfl⟩ := List.exists_cons_of_ne_nil hne
  rw [List.cons_append, run, if_pos (hw c List.mem_cons_self),
    hrest.dropWhile_append fun d hd => hw d (List.mem_cons_of_mem c hd)]

theorem whitespace_of_notMem (h : AsciiSet.whitespace.has c = false) : whitespace (c :: s) = none :=
  run_of_notMem h

theorem single_of_mem (h : set.has c = true) : single kind set (c :: s) = some ⟨kind, s⟩ := by
  rw [single, if_pos h]

theorem punctuation_of_mem (h : set.has c = true) :
    punctuation set (c :: s) = some ⟨.punctuation, s⟩ :=
  single_of_mem h

variable {p : Char → Prop} {t : Lexeme}

/-- In front of a gap the rule reads nothing at a text. -/
def Declines (w : List Char) (rule : Rule) : Prop :=
  ∀ rest, Gap rest → rule (w ++ rest) = none

/-- In front of a gap the rule reads a token, and nothing else. -/
def Recognises (t : Lexeme) (rule : Rule) : Prop :=
  ∀ rest, Gap rest → rule (t.text ++ rest) = some ⟨t.kind, rest⟩

theorem declines_of_head (hw : ∃ c s, w = c :: s ∧ p c)
    (hrule : ∀ c, p c → ∀ s, rule (c :: s) = none) : Declines w rule := by
  obtain ⟨c, s, rfl, hc⟩ := hw
  intro rest _
  exact hrule c hc (s ++ rest)

theorem Recognises.first (h : Recognises t rule) : Recognises t (firstOf (rule :: rules)) :=
  fun rest hrest => firstOf_cons_of_some (h rest hrest)

theorem Recognises.behind (hrule : Declines t.text rule) (h : Recognises t (firstOf rules)) :
    Recognises t (firstOf (rule :: rules)) := by
  intro rest hrest
  rw [firstOf_cons_of_none (hrule rest hrest), h rest hrest]

theorem whitespace_declines (h : Visible w) : Declines w whitespace :=
  declines_of_head h fun _ hc _ => whitespace_of_notMem hc

end Rule

namespace CommentSyntax

variable {syn : CommentSyntax} {mark c : Char} {word s rest : List Char}

/-- The markers that open a comment. -/
def markers (syn : CommentSyntax) : List (List Char) :=
  syn.line.map String.toList ++ syn.block.toList.map fun block => block.1.toList

theorem scan_eq_none (h : ∀ marker ∈ syn.markers, marker.isPrefixOf s = false) :
    syn.scan s = none := by
  have hblock : syn.scanBlock s = none := by
    rw [scanBlock]
    split
    · rfl
    · next opening closing hb =>
        have hno := h opening.toList (List.mem_append_right _ (by simp [hb]))
        split
        · rfl
        · next body hbody =>
            rw [eq_append_of_isPrefixOf? hbody] at hno
            have hyes := List.isPrefixOf_iff_prefix.2 (List.prefix_append opening.toList body)
            rw [hno] at hyes
            cases hyes
  have hline : syn.scanLine s = none := by
    rw [scanLine, if_neg]
    rw [List.any_eq_true]
    rintro ⟨marker, hmem, hprefix⟩
    have hno := h marker.toList (List.mem_append_left _ (List.mem_map_of_mem hmem))
    rw [hno] at hprefix
    cases hprefix
  rw [scan, Rule.firstOf_cons_of_none hblock, Rule.firstOf_cons_of_none hline, Rule.firstOf_nil]

theorem scan_cons_eq_none (hmarks : ∀ marker ∈ syn.markers, marker.head? = some mark)
    (hc : c ≠ mark) : syn.scan (c :: s) = none := by
  refine scan_eq_none fun marker hmem => ?_
  have hhead := hmarks marker hmem
  cases marker with
  | nil => cases hhead
  | cons m marker =>
      obtain rfl := Option.some.inj hhead
      rw [List.isPrefixOf, beq_eq_false_iff_ne.2 hc.symm, Bool.false_and]

/-- In front of a gap a word that no marker begins opens no comment. -/
theorem scan_append_eq_none
    (hplain : ∀ marker ∈ syn.markers, ∀ c ∈ marker, AsciiSet.whitespace.has c = false)
    (h : ∀ marker ∈ syn.markers, marker.isPrefixOf word = false) (hrest : Gap rest) :
    syn.scan (word ++ rest) = none := by
  refine scan_eq_none fun marker hmem => ?_
  rw [hrest.isPrefixOf_append (hplain marker hmem), h marker hmem]

end CommentSyntax

theorem scanHashbang_of_ne {c : Char} (hc : c ≠ '#') (fresh : Bool) (s : List Char) :
    scanHashbang fresh (c :: s) = none := by
  rw [scanHashbang, if_neg]
  rintro ⟨-, hprefix⟩
  exact hc (List.cons_prefix_cons.1 (List.isPrefixOf_iff_prefix.1 hprefix)).1.symm

/-- A word, given the ASCII characters that may start one and those that may go on one. -/
inductive Word (start set : AsciiSet) : List Char → Prop where
  | run {c : Char} {w : List Char} (hc : startsWord start c = true)
      (hw : ∀ d ∈ w, continuesWord set d = true) : Word start set (c :: w)

namespace Word

variable {start set : AsciiSet} {w rest : List Char}

theorem head (h : Word start set w) : ∃ c t, w = c :: t ∧ startsWord start c = true := by
  cases h with
  | run hc hw => exact ⟨_, _, rfl, hc⟩

theorem forall_mem (hsub : ∀ c ∈ start.members, set.has c = true) (h : Word start set w) :
    ∀ c ∈ w, continuesWord set c = true := by
  cases h with
  | run hc hw =>
      have hset := continuesWord_of_startsWord (fun hm => hsub _ (AsciiSet.mem_members.2 hm)) hc
      exact List.forall_mem_cons.2 ⟨hset, hw⟩

theorem atWord_append (h : Word start set w) (rest : List Char) :
    atWord start (w ++ rest) = true := by
  cases h with
  | run hc hw => exact hc

theorem wordOf_append (hsub : ∀ c ∈ start.members, set.has c = true) (h : Word start set w)
    (hrest : Stops (continuesWord set) rest) : wordOf set (w ++ rest) = w :=
  hrest.takeWhile_append (h.forall_mem hsub)

theorem behindWord_append (hsub : ∀ c ∈ start.members, set.has c = true) (h : Word start set w)
    (hrest : Stops (continuesWord set) rest) : behindWord set (w ++ rest) = rest :=
  hrest.dropWhile_append (h.forall_mem hsub)

end Word

/-- An identifier where `$` is no letter. -/
abbrev Identifier := Word .identStart .identContinue

namespace Identifier

variable {w rest : List Char}

theorem visible (h : Identifier w) : Visible w := by
  obtain ⟨c, s, rfl, hc⟩ := h.head
  exact ⟨c, s, rfl, AsciiSet.whitespace.has_eq_false hc (by decide)⟩

theorem behindIdentifier?_append (h : Identifier w)
    (hrest : Stops (continuesWord .identContinue) rest) :
    behindIdentifier? (w ++ rest) = some rest := by
  rw [behindIdentifier?, h.atWord_append rest, if_pos rfl, h.behindWord_append (by decide) hrest]

end Identifier

/-! ## Operators

Longer spellings are tried before shorter ones, so an operator is read back only if no longer one
begins with it and what is behind it. A gap adds nothing to a spelling, and that no spelling hides
another is what `Clear` asks of a language. -/

namespace OperatorSyntax

variable {syn : OperatorSyntax} {words : List String} {op : String} {c : Char}
  {word w s rest : List Char}

/-- Every operator. -/
def spellings (syn : OperatorSyntax) : List (List Char) :=
  (syn.four ++ syn.three ++ syn.two).map String.toList ++ syn.one.toList.map fun c => [c]

/-- Spellings that are read back, each of them as the longest that its own text begins with. -/
structure Clear (syn : OperatorSyntax) : Prop where
  plain : ∀ word ∈ syn.spellings, ∀ c ∈ word,
    AsciiSet.whitespace.has c = false ∧ c.toNat < 128
  longest : ∀ word ∈ syn.spellings, word ≠ [] ∧ syn.length? word = some word.length

theorem matchesAny_append {words : List String}
    (hwords : ∀ w ∈ words, ∀ c ∈ w.toList, AsciiSet.whitespace.has c = false) (hrest : Gap rest) :
    matchesAny words (word ++ rest) = matchesAny words word := by
  rw [matchesAny, matchesAny, Bool.eq_iff_iff, List.any_eq_true, List.any_eq_true]
  constructor
  · rintro ⟨w, hmem, h⟩
    exact ⟨w, hmem, hrest.isPrefixOf_append (hwords w hmem) ▸ h⟩
  · rintro ⟨w, hmem, h⟩
    exact ⟨w, hmem, (hrest.isPrefixOf_append (hwords w hmem)).symm ▸ h⟩

/-- No operator takes anything of a gap. -/
theorem length?_append (hsyn : syn.Clear) (hne : word ≠ []) (hrest : Gap rest) :
    syn.length? (word ++ rest) = syn.length? word := by
  have hplain : ∀ w ∈ syn.four ++ syn.three ++ syn.two, ∀ c ∈ w.toList,
      AsciiSet.whitespace.has c = false := fun w hmem c hc =>
    (hsyn.plain w.toList (List.mem_append_left _ (List.mem_map_of_mem hmem)) c hc).1
  simp only [List.mem_append] at hplain
  obtain ⟨d, t, rfl⟩ := List.exists_cons_of_ne_nil hne
  simp only [length?, matchesAny_append (fun w hw => hplain w (.inl (.inl hw))) hrest,
    matchesAny_append (fun w hw => hplain w (.inl (.inr hw))) hrest,
    matchesAny_append (fun w hw => hplain w (.inr hw)) hrest]
  rfl

theorem scan_append (hsyn : syn.Clear) (h : word ∈ syn.spellings) (hrest : Gap rest) :
    syn.scan (word ++ rest) = some ⟨.operator, rest⟩ := by
  obtain ⟨hne, hlength⟩ := hsyn.longest word h
  rw [scan, length?_append hsyn hne hrest, hlength, Option.map_some,
    dropBytes_append_of_ascii fun c hc => (hsyn.plain word h c hc).2]

theorem scan_append_eq_none (hsyn : syn.Clear) (hne : word ≠ []) (h : syn.length? word = none)
    (hrest : Gap rest) : syn.scan (word ++ rest) = none := by
  rw [scan, length?_append hsyn hne hrest, h]
  rfl

theorem matchesAny_self (h : op ∈ words) : matchesAny words op.toList = true :=
  List.any_eq_true.2 ⟨op, h, List.isPrefixOf_iff_prefix.2 List.prefix_rfl⟩

theorem exists_of_matchesAny (h : matchesAny words s = true) : ∃ op ∈ words, op.toList <+: s := by
  obtain ⟨op, hmem, hfront⟩ := List.any_eq_true.1 h
  exact ⟨op, hmem, List.isPrefixOf_iff_prefix.1 hfront⟩

theorem not_matchesAny_mono (h : ¬ matchesAny words s = true) (hw : w <+: s) :
    ¬ matchesAny words w = true := by
  intro hany
  obtain ⟨op, hmem, hfront⟩ := exists_of_matchesAny hany
  exact h (List.any_eq_true.2 ⟨op, hmem, List.isPrefixOf_iff_prefix.2 (hfront.trans hw)⟩)

/-- The length is that of a spelling at the front. -/
theorem exists_of_length? {n : Nat} (h : syn.length? s = some n) :
    ∃ word ∈ syn.spellings, word <+: s ∧ syn.length? word = some n := by
  have hlong {op : String} (hmem : op ∈ syn.four ++ syn.three ++ syn.two) :
      op.toList ∈ syn.spellings :=
    List.mem_append_left _ (List.mem_map_of_mem hmem)
  rw [length?.eq_def] at h
  split at h
  · next hfour =>
      cases h
      obtain ⟨op, hmem, hfront⟩ := exists_of_matchesAny hfour
      refine ⟨op.toList, hlong (by simp [hmem]), hfront, ?_⟩
      rw [length?.eq_def, if_pos (matchesAny_self hmem)]
  · next hfour =>
      split at h
      · next hthree =>
          cases h
          obtain ⟨op, hmem, hfront⟩ := exists_of_matchesAny hthree
          refine ⟨op.toList, hlong (by simp [hmem]), hfront, ?_⟩
          rw [length?.eq_def, if_neg (not_matchesAny_mono hfour hfront),
            if_pos (matchesAny_self hmem)]
      · next hthree =>
          split at h
          · next htwo =>
              cases h
              obtain ⟨op, hmem, hfront⟩ := exists_of_matchesAny htwo
              refine ⟨op.toList, hlong (by simp [hmem]), hfront, ?_⟩
              rw [length?.eq_def, if_neg (not_matchesAny_mono hfour hfront),
                if_neg (not_matchesAny_mono hthree hfront), if_pos (matchesAny_self hmem)]
          · next htwo =>
              split at h
              · cases h
              · next c t =>
                  split at h
                  · next hone =>
                      cases h
                      have hfront : [c] <+: c :: t := ⟨t, rfl⟩
                      refine ⟨[c], List.mem_append_right _ ?_, hfront, ?_⟩
                      · exact List.mem_map_of_mem (List.contains_iff_mem.1 hone)
                      · rw [length?.eq_def, if_neg (not_matchesAny_mono hfour hfront),
                          if_neg (not_matchesAny_mono hthree hfront),
                          if_neg (not_matchesAny_mono htwo hfront)]
                        exact if_pos hone
                  · cases h

/-- What is read as an operator is one, if the spellings are read back. -/
theorem Clear.exists_of_scan (hsyn : syn.Clear) {r : Match} (h : syn.scan s = some r) :
    r.kind = .operator ∧ ∃ word ∈ syn.spellings, s = word ++ r.rest := by
  obtain ⟨n, hn, rfl⟩ := Option.map_eq_some_iff.1 h
  obtain ⟨word, hmem, ⟨t, rfl⟩, hlength⟩ := exists_of_length? hn
  rw [(hsyn.longest word hmem).2] at hlength
  cases hlength
  refine ⟨rfl, word, hmem, ?_⟩
  rw [dropBytes_append_of_ascii fun c hc => (hsyn.plain word hmem c hc).2]

end OperatorSyntax

namespace Lexer

variable {σ : Type} {lexer : Lexer σ} {state state' : σ} {kind : Kind} {word rest : List Char}

/-- A step that leaves what is behind a word has the word for its lexeme. -/
theorem run_append (hne : word ≠ [])
    (h : ∀ c s, word ++ rest = c :: s → lexer.step state c s = ⟨kind, rest, state'⟩) :
    lexer.run state (word ++ rest) = ⟨kind, word⟩ :: lexer.run state' rest := by
  obtain ⟨c, t, rfl⟩ := List.exists_cons_of_ne_nil hne
  rw [List.cons_append, run_cons, h c (t ++ rest) rfl, ← List.cons_append, before_append]

theorem run_ofRules_append {rules : List Rule} (hrules : ∀ rule ∈ rules, Rule.Consumes rule)
    (hne : word ≠ []) (h : Rule.firstOf rules (word ++ rest) = some ⟨kind, rest⟩) :
    (ofRules rules hrules).run () (word ++ rest) =
      ⟨kind, word⟩ :: (ofRules rules hrules).run () rest := by
  refine run_append hne fun c s hcs => ?_
  rw [hcs] at h
  simp only [ofRules, scanOr, h, Option.getD_some]

/-- From a state of one sort a lexer takes a lexeme off the front of what is left, and behind it the
state is of another sort. -/
def Takes (lexer : Lexer σ) (P : σ → Prop) (found : Lexeme) (rest : List Char) (Q : σ → Prop) :
    Prop :=
  ∀ state, P state →
    ∃ state', Q state' ∧ lexer.run state (found.text ++ rest) = found :: lexer.run state' rest

end Lexer

end Highlight
