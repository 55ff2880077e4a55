import Highlight.Proofs.CharacterReading
import Highlight.Proofs.RuleLines
import Highlight.Proofs.StringLines

/-!
# Carriage returns in front of newlines

What becomes of a construct if every newline of a text has a carriage return put in front of it?
Most scans do not tell the two characters from each other: both go on with a run of white space, and
both end a word, a number or an operator. Such a scan leaves the rest it left before, with the
returns in it.

A scan that stops at a newline passes over the return first. It leaves a rest that begins with the
newline itself, and so the two rests are not at the same place any more, but white space is next in
either, and behind it they are.

A scan that takes a character as it is, since a backslash is in front of it, takes a return where it
took a newline. In a text that may span lines the newline is taken as well. In one that may not it
is what ends the text, so nothing can be said of a string that was continued on the next line.
-/

namespace Highlight

variable {c c' : Char} {p : Char → Bool} {s t rest rest' : List Char}

/-- A text with a carriage return in front of every newline. -/
def withReturns (s : List Char) : List Char :=
  s.flatMap fun c => if c = '\n' then ['\r', '\n'] else [c]

theorem withReturns_newline (s : List Char) :
    withReturns ('\n' :: s) = '\r' :: '\n' :: withReturns s := rfl

theorem withReturns_cons (hc : c ≠ '\n') (s : List Char) :
    withReturns (c :: s) = c :: withReturns s := by
  rw [withReturns, List.flatMap_cons, if_neg hc]
  rfl

theorem withReturns_append (s t : List Char) :
    withReturns (s ++ t) = withReturns s ++ withReturns t :=
  List.flatMap_append

theorem withReturns_eq_self (h : '\n' ∉ s) : withReturns s = s := by
  induction s with
  | nil => rfl
  | cons c s ih =>
      rw [List.mem_cons, not_or] at h
      rw [withReturns_cons (Ne.symm h.1), ih h.2]

theorem before_withReturns (hs : rest <:+ s) :
    before (withReturns s) (withReturns rest) = withReturns (before s rest) := by
  obtain ⟨taken, rfl⟩ := hs
  rw [withReturns_append, before_append, before_append]

theorem head?_withReturns (hline : c ≠ '\n') (hreturn : c ≠ '\r') :
    (withReturns s).head? = some c ↔ s.head? = some c := by
  cases s with
  | nil => exact Iff.rfl
  | cons d s =>
      by_cases hd : d = '\n'
      · subst hd
        exact iff_of_false (fun h => hreturn (Option.some.inj h).symm)
          (fun h => hline (Option.some.inj h).symm)
      · rw [withReturns_cons hd]
        exact Iff.rfl

/-- A newline is never first, for a return is in front of it. -/
theorem head?_withReturns_ne (s : List Char) : (withReturns s).head? ≠ some '\n' := by
  cases s with
  | nil => exact nofun
  | cons c s =>
      by_cases hc : c = '\n'
      · subst hc
        exact fun h => absurd (Option.some.inj h) (by decide)
      · rw [withReturns_cons hc]
        exact fun h => hc (Option.some.inj h)

theorem withReturns_eq_nil (h : withReturns s = []) : s = [] := by
  cases s with
  | nil => rfl
  | cons c s =>
      rw [withReturns, List.flatMap_cons, List.append_eq_nil_iff] at h
      split at h
      · cases h.1
      · cases h.1

/-- A class that has both characters or neither. -/
theorem dropWhile_withReturns (hp : p '\r' = p '\n') (s : List Char) :
    (withReturns s).dropWhile p = withReturns (s.dropWhile p) := by
  induction s with
  | nil => rfl
  | cons c s ih =>
      by_cases hc : c = '\n'
      · subst hc
        rw [withReturns_newline, List.dropWhile_cons, List.dropWhile_cons, List.dropWhile_cons, hp,
          ih]
        split <;> rfl
      · rw [withReturns_cons hc, List.dropWhile_cons, List.dropWhile_cons, ih]
        split
        · rfl
        · rw [withReturns_cons hc]

theorem takeWhile_withReturns (hline : p '\n' = false) (hreturn : p '\r' = false) (s : List Char) :
    (withReturns s).takeWhile p = s.takeWhile p := by
  induction s with
  | nil => rfl
  | cons c s ih =>
      by_cases hc : c = '\n'
      · subst hc
        rw [withReturns_newline, List.takeWhile_cons_of_neg (Bool.eq_false_iff.1 hreturn),
          List.takeWhile_cons_of_neg (Bool.eq_false_iff.1 hline)]
      · rw [withReturns_cons hc, List.takeWhile_cons, List.takeWhile_cons, ih]

theorem contains_takeWhile_withReturns (hline : p '\n' = true)
    (hreturn : p '\r' = true) (s : List Char) :
    ((withReturns s).takeWhile p).contains '\n' = (s.takeWhile p).contains '\n' := by
  induction s with
  | nil => rfl
  | cons c s ih =>
      by_cases hc : c = '\n'
      · subst hc
        rw [withReturns_newline, List.takeWhile_cons_of_pos hreturn,
          List.takeWhile_cons_of_pos hline, List.takeWhile_cons_of_pos hline]
        rfl
      · rw [withReturns_cons hc, List.takeWhile_cons, List.takeWhile_cons]
        split
        · rw [List.contains_cons, List.contains_cons, ih]
        · rfl

theorem isPrefixOf?_withReturns {marker : List Char}
    (h : ∀ c ∈ marker, AsciiSet.whitespace.has c = false) (s : List Char) :
    marker.isPrefixOf? (withReturns s) = (marker.isPrefixOf? s).map withReturns := by
  induction marker generalizing s with
  | nil => rfl
  | cons m marker ih =>
      obtain ⟨hm, hmarker⟩ := List.forall_mem_cons.1 h
      cases s with
      | nil => rfl
      | cons c s =>
          by_cases hc : c = '\n'
          · subst hc
            have hne (d : Char) (hd : AsciiSet.whitespace.has d = true) : m ≠ d :=
              (ne_of_class hd hm).symm
            rw [withReturns_newline, isPrefixOf?_cons_of_ne (hne '\r' rfl),
              isPrefixOf?_cons_of_ne (hne '\n' rfl)]
            rfl
          · rw [withReturns_cons hc]
            show (if m == c then marker.isPrefixOf? (withReturns s) else none) =
              (if m == c then marker.isPrefixOf? s else none).map withReturns
            rw [ih hmarker]
            split <;> rfl

theorem isPrefixOf_withReturns {marker : List Char}
    (h : ∀ c ∈ marker, AsciiSet.whitespace.has c = false) (s : List Char) :
    marker.isPrefixOf (withReturns s) = marker.isPrefixOf s := by
  rw [Bool.eq_iff_iff, List.isPrefixOf_iff_prefix, List.isPrefixOf_iff_prefix]
  have hmap := isPrefixOf?_withReturns h s
  constructor
  · rintro ⟨t, ht⟩
    rw [← ht, isPrefixOf?_append] at hmap
    obtain ⟨u, hu, -⟩ := Option.map_eq_some_iff.1 hmap.symm
    exact ⟨u, (eq_append_of_isPrefixOf? hu).symm⟩
  · rintro ⟨t, rfl⟩
    rw [isPrefixOf?_append] at hmap
    exact ⟨_, (eq_append_of_isPrefixOf? hmap).symm⟩

theorem any_isPrefixOf_withReturns {markers : List String}
    (h : ∀ marker ∈ markers, ∀ c ∈ marker.toList, AsciiSet.whitespace.has c = false)
    (s : List Char) :
    (markers.any fun marker => marker.toList.isPrefixOf (withReturns s)) =
      markers.any fun marker => marker.toList.isPrefixOf s := by
  induction markers with
  | nil => rfl
  | cons marker markers ih =>
      obtain ⟨hmarker, hmarkers⟩ := List.forall_mem_cons.1 h
      rw [List.any_cons, List.any_cons, isPrefixOf_withReturns hmarker, ih hmarkers]

theorem behind_cons (marker : List Char) (c : Char) (s : List Char) :
    behind marker (c :: s) = (marker.isPrefixOf? (c :: s)).getD (behind marker s) := by
  rw [behind]
  cases marker.isPrefixOf? (c :: s) <;> rfl

theorem behind_withReturns {marker : List Char} (hne : marker ≠ [])
    (h : ∀ c ∈ marker, AsciiSet.whitespace.has c = false) (s : List Char) :
    behind marker (withReturns s) = withReturns (behind marker s) := by
  obtain ⟨m, ms, rfl⟩ := List.exists_cons_of_ne_nil hne
  induction s with
  | nil => rfl
  | cons c s ih =>
      by_cases hc : c = '\n'
      · subst hc
        have hm := (List.forall_mem_cons.1 h).1
        have hskip (d : Char) (hd : AsciiSet.whitespace.has d = true) (t : List Char) :
            behind (m :: ms) (d :: t) = behind (m :: ms) t := by
          rw [behind_cons, isPrefixOf?_cons_of_ne (ne_of_class hd hm).symm, Option.getD_none]
        rw [withReturns_newline, hskip '\r' rfl, hskip '\n' rfl, hskip '\n' rfl, ih]
      · have hfront := isPrefixOf?_withReturns h (c :: s)
        rw [withReturns_cons hc] at hfront ⊢
        rw [behind_cons, behind_cons, hfront, ih]
        cases (m :: ms).isPrefixOf? (c :: s) <;> rfl

/-! ## Rests at the same place

A scan that stops at a newline has passed over the return in front of it, and its rest is not the
other rest with returns put in. `SamePlace` allows for that one difference. White space is next on
either side then, and behind it there is no difference any more. -/

/-- Where a rest of a text and one of the text with returns are: at the same place, or both at a
newline, with the return passed over. -/
inductive SamePlace : List Char → List Char → Prop where
  | same (s : List Char) : SamePlace s (withReturns s)
  | newline (s : List Char) : SamePlace ('\n' :: s) ('\n' :: withReturns s)

/-- Nothing was taken of the text if nothing was of the other. -/
theorem SamePlace.eq_of_suffix (h : SamePlace rest rest') (hs : rest <:+ s)
    (heq : rest' = withReturns s) : rest = s := by
  cases h with
  | same rest =>
      obtain ⟨taken, rfl⟩ := hs
      rw [withReturns_append] at heq
      rw [withReturns_eq_nil (List.self_eq_append_left.1 heq)]
      rfl
  | newline t =>
      have hhead := head?_withReturns_ne s
      rw [← heq] at hhead
      exact absurd rfl hhead

/-- A class that has the return and not the newline: a run stops at the newline if at either. -/
theorem samePlace_dropWhile (hline : p '\n' = false) (hreturn : p '\r' = true) (s : List Char) :
    ((s.dropWhile p).head? ≠ some '\n' ∧
      (withReturns s).dropWhile p = withReturns (s.dropWhile p)) ∨
    ∃ t, s.dropWhile p = '\n' :: t ∧ (withReturns s).dropWhile p = '\n' :: withReturns t := by
  induction s with
  | nil => exact .inl ⟨nofun, rfl⟩
  | cons c s ih =>
      by_cases hc : c = '\n'
      · subst hc
        have hstop : ¬ p '\n' = true := Bool.eq_false_iff.1 hline
        refine .inr ⟨s, List.dropWhile_cons_of_neg hstop, ?_⟩
        rw [withReturns_newline, List.dropWhile_cons_of_pos hreturn,
          List.dropWhile_cons_of_neg hstop]
      · rw [withReturns_cons hc]
        by_cases hp : p c = true
        · rw [List.dropWhile_cons_of_pos hp, List.dropWhile_cons_of_pos hp]
          exact ih
        · rw [List.dropWhile_cons_of_neg hp, List.dropWhile_cons_of_neg hp]
          exact .inl ⟨fun h => hc (Option.some.inj h), (withReturns_cons hc s).symm⟩

namespace SamePlace

theorem exists_cons {s' : List Char} (h : SamePlace (c :: s) s') : ∃ c' t, s' = c' :: t := by
  refine List.exists_cons_of_ne_nil ?_
  rintro rfl
  generalize heq : [] = s' at h
  cases h with
  | same s => cases withReturns_eq_nil heq.symm
  | newline s => cases heq

theorem visible (h : SamePlace (c :: s) (c' :: t)) (hc : AsciiSet.whitespace.has c = false) :
    c ≠ '\n' ∧ c' = c ∧ t = withReturns s := by
  have hne : c ≠ '\n' := by
    rintro rfl
    cases hc
  generalize heq : c' :: t = s' at h
  cases h with
  | newline s => exact absurd rfl hne
  | same s =>
      rw [withReturns_cons hne] at heq
      exact ⟨hne, (List.cons.inj heq).1, (List.cons.inj heq).2⟩

/-- A run of white space ends at the same place, whether the scan began in front of the return or
behind it. -/
theorem space (h : SamePlace (c :: s) (c' :: t)) (hc : AsciiSet.whitespace.has c = true) :
    AsciiSet.whitespace.has c' = true ∧
      t.dropWhile AsciiSet.whitespace.has = withReturns (s.dropWhile AsciiSet.whitespace.has) ∧
      ((c' :: t).takeWhile AsciiSet.whitespace.has).contains '\n' =
        ((c :: s).takeWhile AsciiSet.whitespace.has).contains '\n' := by
  have hdrop (s : List Char) := dropWhile_withReturns (p := AsciiSet.whitespace.has) rfl s
  generalize heq : c' :: t = s' at h
  cases h with
  | newline s =>
      cases heq
      exact ⟨rfl, hdrop s, rfl⟩
  | same s =>
      have htake := contains_takeWhile_withReturns (p := AsciiSet.whitespace.has) rfl rfl (c :: s)
      rw [htake]
      by_cases hline : c = '\n'
      · subst hline
        cases heq
        exact ⟨rfl, hdrop s, rfl⟩
      · rw [withReturns_cons hline] at heq
        cases heq
        exact ⟨hc, hdrop s, rfl⟩

end SamePlace

theorem samePlace_fromNewline (s : List Char) :
    SamePlace (fromNewline s) (fromNewline (withReturns s)) := by
  rcases samePlace_dropWhile (p := (· != '\n')) (by decide) (by decide) s with
    ⟨-, hsame⟩ | ⟨t, hrest, hrest'⟩
  · rw [fromNewline, fromNewline, hsame]
    exact .same _
  · rw [fromNewline, fromNewline, hrest, hrest']
    exact .newline t

/-- What is taken of the tail of a text is taken of the text. -/
theorem notMem_before (h : c ∉ before s rest) (ht : t <:+ s) (hrest : rest <:+ t) :
    c ∉ before t rest := by
  rw [← Lexer.before_append_before ht hrest] at h
  exact fun hmem => h (List.mem_append_right _ hmem)

/-! ## Rules

`Keeps` is for rules that leave the very rest with returns in it, and `Follows` for those that may
leave one at the same place instead, behind what ends with its line. The second follows from the
first, and an ordered list of rules has it as soon as each of them does. -/

/-- The construct with the returns in its rest. -/
def Match.withReturns (found : Match) : Match :=
  ⟨found.kind, Highlight.withReturns found.rest⟩

/-- The kinds of what may end with its line. -/
def lineKinds : List Kind := [.commentHashbang, .commentSingle, .string, .stringRegex]

/-- Whether a construct of a text with returns is that of the text. -/
structure Match.Follows (found found' : Match) : Prop where
  kind : found'.kind = found.kind
  place : SamePlace found.rest found'.rest
  same : found.kind ∉ lineKinds → found'.rest = Highlight.withReturns found.rest

namespace Match

theorem follows_withReturns (found : Match) : found.Follows found.withReturns :=
  ⟨rfl, .same _, fun _ => rfl⟩

theorem follows_of_samePlace {kind : Kind} (hkind : kind ∈ lineKinds)
    (h : SamePlace rest rest') : Follows ⟨kind, rest⟩ ⟨kind, rest'⟩ :=
  ⟨rfl, h, fun hnot => absurd hkind hnot⟩

end Match

namespace Rule

variable {rule : Rule} {rules : List Rule} {set : AsciiSet}

/-- Whether the rule does not mind the returns. -/
def Keeps (rule : Rule) : Prop :=
  ∀ s, rule (withReturns s) = (rule s).map Match.withReturns

/-- Whether the rule recognises in a text with returns what it does in the text, unless that is a
string that goes on in the next line. -/
def Follows (rule : Rule) : Prop :=
  ∀ s, (∀ found, rule s = some found → found.kind = .string → '\n' ∉ before s found.rest) →
    Option.Rel Match.Follows (rule s) (rule (withReturns s))

theorem Keeps.follows (h : rule.Keeps) : rule.Follows := by
  intro s _
  rw [h s]
  cases rule s with
  | none => exact .none
  | some found => exact .some found.follows_withReturns

theorem follows_firstOf (h : ∀ rule ∈ rules, Follows rule) : Follows (firstOf rules) := by
  intro s hline
  induction rules with
  | nil => exact .none
  | cons rule rules ih =>
      have hrule := h rule List.mem_cons_self s
      have hrules := ih fun rule hmem => h rule (List.mem_cons_of_mem _ hmem)
      cases hfound : rule s with
      | some found =>
          rw [firstOf_cons_of_some hfound] at hline ⊢
          have hrel := hrule (by rw [hfound]; exact hline)
          rw [hfound] at hrel
          cases hfound' : rule (withReturns s) with
          | none =>
              rw [hfound'] at hrel
              cases hrel
          | some found' =>
              rw [hfound'] at hrel
              rw [firstOf_cons_of_some hfound']
              exact hrel
      | none =>
          rw [firstOf_cons_of_none hfound] at hline ⊢
          have hrel := hrule (by rw [hfound]; exact nofun)
          rw [hfound] at hrel
          cases hfound' : rule (withReturns s) with
          | none =>
              rw [firstOf_cons_of_none hfound']
              exact hrules hline
          | some found' =>
              rw [hfound'] at hrel
              cases hrel

/-- A rule that recognises nothing at either character minds the returns behind the first character
only. -/
theorem keeps_of_cons (hnil : rule [] = none)
    (hnewline : ∀ s, rule ('\n' :: s) = none ∧ rule ('\r' :: s) = none)
    (hcons : ∀ c s, c ≠ '\n' →
      rule (c :: Highlight.withReturns s) = (rule (c :: s)).map Match.withReturns) :
    Keeps rule := by
  intro s
  cases s with
  | nil =>
      rw [show Highlight.withReturns [] = [] from rfl, hnil]
      rfl
  | cons c s =>
      by_cases hc : c = '\n'
      · subst hc
        rw [withReturns_newline, (hnewline s).1, (hnewline _).2]
        rfl
      · rw [withReturns_cons hc]
        exact hcons c s hc

theorem keeps_run (kind : Kind) (h : set.has '\r' = set.has '\n') : Keeps (run kind set) := by
  intro s
  cases s with
  | nil => rfl
  | cons c s =>
      by_cases hc : c = '\n'
      · subst hc
        rw [withReturns_newline, run, run, h]
        split
        · next hline =>
            rw [List.dropWhile_cons_of_pos hline, dropWhile_withReturns h]
            rfl
        · rfl
      · rw [withReturns_cons hc, run, run, dropWhile_withReturns h]
        split <;> rfl

theorem keeps_single (kind : Kind) (hline : set.has '\n' = false) (hreturn : set.has '\r' = false) :
    Keeps (single kind set) := by
  refine keeps_of_cons rfl (fun s => ?_) fun c s _ => ?_
  · rw [single, single, hline, hreturn]
    exact ⟨rfl, rfl⟩
  · rw [single, single]
    split <;> rfl

end Rule

namespace Lexer

theorem follows_scanOr {fallback : Kind} {rule : Rule} (h : rule.Follows) (hc : c ≠ '\n')
    (hline : (scanOr fallback rule c s).kind = .string →
      '\n' ∉ before (c :: s) (scanOr fallback rule c s).rest) :
    (scanOr fallback rule c s).Follows (scanOr fallback rule c (withReturns s)) := by
  have hrel := h (c :: s) fun found hfound => by
    rw [scanOr, hfound] at hline
    exact hline
  rw [withReturns_cons hc] at hrel
  rw [scanOr, scanOr]
  generalize rule (c :: s) = found at hrel
  generalize rule (c :: withReturns s) = found' at hrel
  cases hrel with
  | none => exact Match.follows_withReturns ⟨fallback, s⟩
  | some hfollows => exact hfollows

end Lexer

theorem atWord_withReturns {set : AsciiSet} (hline : set.has '\n' = false)
    (hreturn : set.has '\r' = false) (s : List Char) :
    atWord set (withReturns s) = atWord set s := by
  cases s with
  | nil => rfl
  | cons c s =>
      by_cases hc : c = '\n'
      · subst hc
        rw [withReturns_newline, atWord, atWord, startsWord, startsWord, if_pos (by decide),
          if_pos (by decide), hline, hreturn]
      · rw [withReturns_cons hc]
        rfl

section

variable {set : AsciiSet} (hline : set.has '\n' = false) (hreturn : set.has '\r' = false)

include hline hreturn

theorem continuesWord_eq_false :
    continuesWord set '\n' = false ∧ continuesWord set '\r' = false := by
  rw [continuesWord, if_pos (by decide), continuesWord, if_pos (by decide)]
  exact ⟨hline, hreturn⟩

theorem wordOf_withReturns (s : List Char) : wordOf set (withReturns s) = wordOf set s :=
  have hword := continuesWord_eq_false hline hreturn
  takeWhile_withReturns hword.1 hword.2 s

theorem behindWord_withReturns (s : List Char) :
    behindWord set (withReturns s) = withReturns (behindWord set s) :=
  have hword := continuesWord_eq_false hline hreturn
  dropWhile_withReturns (hword.2.trans hword.1.symm) s

end

theorem identifierOf_withReturns (s : List Char) :
    identifierOf (withReturns s) = identifierOf s :=
  wordOf_withReturns (by decide) (by decide) s

theorem behindIdentifier?_withReturns (s : List Char) :
    behindIdentifier? (withReturns s) = (behindIdentifier? s).map withReturns := by
  rw [behindIdentifier?, behindIdentifier?, atWord_withReturns (by decide) (by decide),
    behindWord_withReturns (by decide) (by decide)]
  split <;> rfl

namespace NumberSyntax

variable (syn : NumberSyntax)

theorem atDigit_withReturns (s : List Char) : atDigit (withReturns s) = atDigit s := by
  cases s with
  | nil => rfl
  | cons c s =>
      by_cases hc : c = '\n'
      · subst hc
        rfl
      · rw [withReturns_cons hc]
        rfl

theorem behindDigits_withReturns {set : AsciiSet} (hline : set.has '\n' = false)
    (hreturn : set.has '\r' = false) (s : List Char) :
    syn.behindDigits set (withReturns s) = withReturns (syn.behindDigits set s) := by
  refine dropWhile_withReturns ?_ s
  rw [isDigitOrGap_eq_false hline (by decide), isDigitOrGap_eq_false hreturn (by decide)]

theorem behindSign_withReturns (s : List Char) :
    behindSign (withReturns s) = withReturns (behindSign s) := by
  cases s with
  | nil => rfl
  | cons c s =>
      by_cases hc : c = '\n'
      · subst hc
        rfl
      · rw [withReturns_cons hc, behindSign, behindSign]
        split
        · rfl
        · exact (withReturns_cons hc s).symm

theorem behindExponent?_withReturns (s : List Char) :
    syn.behindExponent? (withReturns s) = (syn.behindExponent? s).map withReturns := by
  cases s with
  | nil => rfl
  | cons c s =>
      by_cases hc : c = '\n'
      · subst hc
        rfl
      · rw [withReturns_cons hc, behindExponent?, behindExponent?, behindSign_withReturns,
          atDigit_withReturns, behindDigits_withReturns syn (by decide) (by decide)]
        split <;> rfl

theorem withExponent_withReturns (literal : Match) :
    syn.withExponent literal.withReturns = (syn.withExponent literal).withReturns := by
  rw [withExponent, withExponent, Match.withReturns, behindExponent?_withReturns]
  cases syn.behindExponent? literal.rest <;> rfl

theorem withSuffix_withReturns (kind : Kind) (s : List Char) :
    syn.withSuffix kind (withReturns s) = (syn.withSuffix kind s).withReturns := by
  unfold withSuffix
  rw [wordOf_withReturns (by decide) (by decide), behindWord_withReturns (by decide) (by decide)]
  dsimp only
  repeat' split
  all_goals rfl

theorem ending_withReturns (literal : Match) :
    syn.ending literal.withReturns = (syn.ending literal).withReturns := by
  rw [ending, withExponent_withReturns]
  exact withSuffix_withReturns syn _ _

theorem fraction_withReturns (s : List Char) :
    syn.fraction (withReturns s) = (syn.fraction s).withReturns := by
  cases s with
  | nil => rfl
  | cons c s =>
      by_cases hc : c = '\n'
      · subst hc
        rfl
      · by_cases hpoint : c = '.'
        · subst hpoint
          have hhead : (withReturns s).head? = some '.' ↔ s.head? = some '.' :=
            head?_withReturns (by decide) (by decide)
          have hdigits : syn.behindDigits .digits (withReturns s) = _ :=
            behindDigits_withReturns syn (by decide) (by decide) s
          have hword : atWord .identStart (withReturns s) = _ :=
            atWord_withReturns (by decide) (by decide) s
          simp only [withReturns_cons hc, fraction, atDigit_withReturns, ne_eq, hhead, hdigits,
            hword]
          repeat' split
          · rfl
          · rfl
          · exact congrArg (Match.mk .numberInteger) (withReturns_cons hc s).symm
        · have hother (t : List Char) : syn.fraction (c :: t) = ⟨.numberInteger, c :: t⟩ := by
            unfold fraction
            split
            · next heq => exact absurd (List.cons.inj heq).1 hpoint
            · rfl
          rw [withReturns_cons hc, hother, hother, Match.withReturns, withReturns_cons hc]

theorem scanDecimal_withReturns (s : List Char) :
    syn.scanDecimal (withReturns s) = (syn.scanDecimal s).withReturns := by
  rw [scanDecimal, behindDigits_withReturns syn (by decide) (by decide), fraction_withReturns,
    ending_withReturns]
  rfl

theorem scanRadix_withReturns (s : List Char) :
    syn.scanRadix (withReturns s) = (syn.scanRadix s).map Match.withReturns := by
  cases s with
  | nil => rfl
  | cons letter s =>
      by_cases hc : letter = '\n'
      · subst hc
        have hnone : syn.radix? '\n' = none ∧ syn.radix? '\r' = none := by
          simp [radix?]
        rw [withReturns_newline, scanRadix, scanRadix, hnone.1, hnone.2]
        rfl
      · rw [withReturns_cons hc, scanRadix, scanRadix]
        cases hradix : syn.radix? letter with
        | none => rfl
        | some found =>
            have hset : found.1.has '\n' = false ∧ found.1.has '\r' = false := by
              unfold radix? at hradix
              repeat' split at hradix
              all_goals cases hradix
              all_goals decide
            dsimp only
            rw [behindDigits_withReturns syn hset.1 hset.2, withSuffix_withReturns]
            rfl

theorem keeps_scan : Rule.Keeps syn.scan := by
  refine Rule.keeps_of_cons rfl (fun s => ⟨rfl, rfl⟩) fun c s _ => ?_
  rw [scan, scan, atDigit_withReturns, scanRadix_withReturns, scanDecimal_withReturns,
    behindDigits_withReturns syn (by decide) (by decide)]
  split
  · split
    · exact congrArg some (ending_withReturns syn ⟨.numberFloat, _⟩)
    · rfl
  · split
    · split
      · cases syn.scanRadix s <;> rfl
      · rfl
    · rfl

end NumberSyntax

namespace OperatorSyntax

variable {syn : OperatorSyntax}

theorem length?_withReturns (hsyn : syn.Clear) (s : List Char) :
    syn.length? (withReturns s) = syn.length? s := by
  have hplain {word : List Char} (hmem : word ∈ syn.spellings) :
      ∀ c ∈ word, AsciiSet.whitespace.has c = false :=
    fun c hc => (hsyn.plain word hmem c hc).1
  have hany (words : List String) (hwords : words ⊆ syn.four ++ syn.three ++ syn.two) :
      matchesAny words (withReturns s) = matchesAny words s :=
    any_isPrefixOf_withReturns (fun op hop =>
      hplain (List.mem_append_left _ (List.mem_map_of_mem (hwords hop)))) s
  have hfour := hany syn.four (by simp)
  have hthree := hany syn.three (by simp)
  have htwo := hany syn.two (by simp)
  have hone {c : Char} (hc : AsciiSet.whitespace.has c = true) :
      syn.one.toList.contains c = false := by
    rw [Bool.eq_false_iff]
    intro hmem
    have hword : [c] ∈ syn.spellings :=
      List.mem_append_right _ (List.mem_map_of_mem (List.contains_iff_mem.1 hmem))
    rw [hplain hword c (List.mem_singleton_self c)] at hc
    cases hc
  cases s with
  | nil => rfl
  | cons c s =>
      by_cases hc : c = '\n'
      · subst hc
        rw [withReturns_newline] at hfour hthree htwo ⊢
        rw [length?, length?, hfour, hthree, htwo, hone rfl, hone rfl]
      · rw [withReturns_cons hc] at hfour hthree htwo ⊢
        rw [length?, length?, hfour, hthree, htwo]

theorem keeps_scan (hsyn : syn.Clear) : Rule.Keeps syn.scan := by
  intro s
  rw [scan, scan, length?_withReturns hsyn]
  cases hlength : syn.length? s with
  | none => rfl
  | some n =>
      obtain ⟨word, hmem, ⟨t, rfl⟩, hword⟩ := exists_of_length? hlength
      have hplain := hsyn.plain word hmem
      have hreturn : withReturns word = word :=
        withReturns_eq_self fun hline => absurd (hplain '\n' hline).1 (by decide)
      rw [(hsyn.longest word hmem).2] at hword
      cases hword
      have hdrop := dropBytes_append_of_ascii fun c hc => (hplain c hc).2
      rw [withReturns_append, hreturn]
      show some (Match.mk .operator (dropBytes word.length (word ++ withReturns t))) =
        some (Match.withReturns ⟨.operator, dropBytes word.length (word ++ t)⟩)
      rw [hdrop, hdrop]
      rfl

end OperatorSyntax

namespace CommentSyntax

variable {syn : CommentSyntax}

theorem keeps_scanBlock (hnested : syn.nested = false)
    (hmarkers : ∀ opening closing, syn.block = some (opening, closing) →
      (∀ c ∈ opening.toList, AsciiSet.whitespace.has c = false) ∧ closing.toList ≠ [] ∧
        ∀ c ∈ closing.toList, AsciiSet.whitespace.has c = false) :
    Rule.Keeps syn.scanBlock := by
  intro s
  rw [scanBlock, scanBlock]
  split
  · rfl
  · next opening closing hblock =>
      obtain ⟨hopening, hne, hclosing⟩ := hmarkers opening closing hblock
      rw [isPrefixOf?_withReturns hopening]
      cases opening.toList.isPrefixOf? s with
      | none => rfl
      | some body =>
          have hrest (s : List Char) :
              syn.blockRest opening.toList closing.toList s = behind closing.toList s := by
            rw [blockRest, hnested, if_neg Bool.false_ne_true]
          show some (Match.mk .commentMultiline (syn.blockRest _ _ (withReturns body))) =
            some (Match.withReturns ⟨.commentMultiline, syn.blockRest _ _ body⟩)
          rw [hrest, hrest, behind_withReturns hne hclosing]
          rfl

theorem follows_scanLine
    (hmarkers : ∀ marker ∈ syn.line, ∀ c ∈ marker.toList, AsciiSet.whitespace.has c = false) :
    Rule.Follows syn.scanLine := by
  intro s _
  rw [scanLine, scanLine, any_isPrefixOf_withReturns hmarkers]
  split
  · exact .some (Match.follows_of_samePlace (by decide) (samePlace_fromNewline s))
  · exact .none

theorem follows_scan (hnested : syn.nested = false)
    (hmarkers : ∀ marker ∈ syn.line, ∀ c ∈ marker.toList, AsciiSet.whitespace.has c = false)
    (hblock : ∀ opening closing, syn.block = some (opening, closing) →
      (∀ c ∈ opening.toList, AsciiSet.whitespace.has c = false) ∧ closing.toList ≠ [] ∧
        ∀ c ∈ closing.toList, AsciiSet.whitespace.has c = false) :
    Rule.Follows syn.scan := by
  refine Rule.follows_firstOf fun rule hmem => ?_
  simp only [List.mem_cons, List.not_mem_nil, or_false] at hmem
  rcases hmem with rfl | rfl
  · exact (keeps_scanBlock hnested hblock).follows
  · exact follows_scanLine hmarkers

theorem follows_scan_slashes : Rule.Follows slashes.scan := by
  refine follows_scan rfl (by decide) fun opening closing hblock => ?_
  cases hblock
  decide

theorem follows_scan_hash : Rule.Follows hash.scan :=
  follows_scan rfl (by decide) nofun

end CommentSyntax

theorem follows_scanHashbang (fresh : Bool) : Rule.Follows (scanHashbang fresh) := by
  intro s _
  rw [scanHashbang, scanHashbang, isPrefixOf_withReturns (by decide)]
  split
  · exact .some (Match.follows_of_samePlace (by decide) (samePlace_fromNewline s))
  · exact .none

namespace Quoted

variable {quote : Char}

/-- A text that ends with its line, if it takes no newline that is escaped. -/
theorem samePlace_rest (hquote : AsciiSet.whitespace.has quote = false ∧ quote ≠ '\x5c')
    (escapes : Bool) (s : List Char) (h : '\n' ∉ before s (Quoted.rest quote escapes false s)) :
    SamePlace (Quoted.rest quote escapes false s)
      (Quoted.rest quote escapes false (withReturns s)) := by
  have hspace {c : Char} (hc : AsciiSet.whitespace.has c = true) : c ≠ quote :=
    ne_of_class hc hquote.1
  obtain ⟨body, hbody, hends⟩ := exists_body quote escapes false s
  generalize Quoted.rest quote escapes false s = rest at h hends ⊢
  rcases hends with rfl | ⟨rfl, hstop⟩ | ⟨rfl, rfl⟩
  · rw [List.append_cons, before_append, List.mem_append, not_or] at h
    rw [withReturns_append, withReturns_eq_self h.1, hbody.rest_append hquote.2,
      withReturns_cons (hspace rfl).symm, rest_quote]
    exact .same rest
  · rw [before_append] at h
    rw [withReturns_append, withReturns_eq_self h, hbody.rest_append hquote.2]
    rcases hstop with rfl | ⟨-, hline⟩
    · rw [show withReturns [] = [] from rfl, rest_nil]
      exact .same []
    · obtain ⟨t, rfl⟩ := List.head?_eq_some_iff.1 hline
      have hreturn (t : List Char) : Quoted.rest quote escapes false ('\r' :: t) =
          Quoted.rest quote escapes false t := by
        rw [rest_cons, if_neg (hspace rfl), if_neg (by decide), if_neg (fun h => nomatch h.1)]
      rw [withReturns_newline, hreturn, rest_cons, if_neg (hspace rfl), if_pos ⟨rfl, rfl⟩]
      exact .newline t
  · rw [← List.append_nil (body ++ ['\x5c']), before_append] at h
    rw [withReturns_eq_self h, hbody.rest_append hquote.2, rest_cons, if_neg hquote.2.symm,
      if_neg (by decide), List.drop_nil, ite_self, rest_nil]
    exact .same []

/-- A text that may span lines. -/
theorem tripleRest_withReturns
    (hquote : AsciiSet.whitespace.has quote = false ∧ quote ≠ '\x5c') (s : List Char) :
    tripleRest quote (withReturns s) = withReturns (tripleRest quote s) := by
  have hspace {c : Char} (hc : AsciiSet.whitespace.has c = true) (s : List Char) :
      tripleRest quote (c :: s) = tripleRest quote s :=
    tripleRest_cons_of_plain <| looksAt_eq_false_iff.2
      ⟨ne_of_class hc hquote.1, fun _ => ne_of_class hc (by decide), fun h => nomatch h⟩
  match s with
  | [] => rw [show withReturns [] = [] from rfl, tripleRest_nil]; rfl
  | c :: s =>
      have ih := tripleRest_withReturns hquote s
      by_cases hc : c = '\n'
      · subst hc
        rw [withReturns_newline, hspace rfl, hspace rfl, hspace rfl, ih]
      · have hmarker : ∀ c ∈ [quote, quote], AsciiSet.whitespace.has c = false := by
          simp [hquote.1]
        rw [withReturns_cons hc, tripleRest_cons, tripleRest_cons, isPrefixOf?_withReturns hmarker,
          ih]
        split
        · cases [quote, quote].isPrefixOf? s <;> rfl
        · split
          · match s with
            | [] => exact ih
            | d :: s =>
                have hescaped := tripleRest_withReturns hquote s
                by_cases hd : d = '\n'
                · subst hd
                  exact (hspace rfl _).trans hescaped
                · rw [withReturns_cons hd]
                  exact hescaped
          · rfl
termination_by s.length

end Quoted

namespace StringSyntax

variable {syn : StringSyntax}

theorem takeWhile_take_withReturns (hline : p '\n' = false) (hreturn : p '\r' = false) (n : Nat)
    (s : List Char) : ((withReturns s).take n).takeWhile p = (s.take n).takeWhile p := by
  induction s generalizing n with
  | nil => rfl
  | cons c s ih =>
      cases n with
      | zero => rfl
      | succ n =>
          by_cases hc : c = '\n'
          · subst hc
            rw [withReturns_newline, List.take_succ_cons, List.take_succ_cons,
              List.takeWhile_cons_of_neg (Bool.eq_false_iff.1 hreturn),
              List.takeWhile_cons_of_neg (Bool.eq_false_iff.1 hline)]
          · rw [withReturns_cons hc, List.take_succ_cons, List.take_succ_cons, List.takeWhile_cons,
              List.takeWhile_cons, ih]

theorem drop_withReturns {front : List Char} (h : front <+: s) (hline : '\n' ∉ front) :
    (withReturns s).drop front.length = withReturns (s.drop front.length) := by
  obtain ⟨t, rfl⟩ := h
  rw [withReturns_append, withReturns_eq_self hline, List.drop_left, List.drop_left]

theorem affix?_withReturns (h : ∀ c ∈ syn.affixes, AsciiSet.whitespace.has c = false)
    (s : List Char) : syn.affix? (withReturns s) = syn.affix? s := by
  have hspace {c : Char} (hc : AsciiSet.whitespace.has c = true) :
      syn.affixes.contains c = false := by
    rw [Bool.eq_false_iff]
    intro hmem
    rw [h c (List.contains_iff_mem.1 hmem)] at hc
    cases hc
  have hopens (affix : List Char) {c : Char} (hc : AsciiSet.whitespace.has c = true) :
      syn.opens affix c = false := by
    rw [Bool.eq_false_iff]
    intro hopen
    have hmem : c = '\x22' ∨ c = '\x27' ∨ c = '#' := by
      simp only [opens, Bool.or_eq_true, Bool.and_eq_true, beq_iff_eq] at hopen
      tauto
    rcases hmem with rfl | rfl | rfl <;> cases hc
  have hletters : syn.letters (withReturns s) = syn.letters s :=
    takeWhile_take_withReturns (hspace rfl) (hspace rfl) syn.maxAffix s
  have hfront : syn.letters s <+: s := (List.takeWhile_prefix _).trans (List.take_prefix ..)
  have hline : '\n' ∉ syn.letters s := fun hmem =>
    Bool.eq_false_iff.1 (hspace rfl) (List.mem_takeWhile_imp hmem)
  simp only [affix?, hletters, drop_withReturns hfront hline]
  cases s.drop (syn.letters s).length with
  | nil => rfl
  | cons c t =>
      by_cases hc : c = '\n'
      · subst hc
        show (if syn.opens _ '\r' then _ else none) = if syn.opens _ '\n' then _ else none
        rw [hopens _ rfl, hopens _ rfl]
      · rw [withReturns_cons hc]

/-- Literals that end with their line, those in triple quotes aside. -/
theorem follows_scanQuoted {quote : Char} (hquote : quote = '\x22' ∨ quote = '\x27')
    (hmultiline : syn.multiline = false) (hkind : syn.kind = .string) (affix : List Char)
    (hline : ∀ found, syn.scanQuoted affix (quote :: s) = some found → found.kind = .string →
      '\n' ∉ before (quote :: s) found.rest) :
    Option.Rel Match.Follows (syn.scanQuoted affix (quote :: s))
      (syn.scanQuoted affix (quote :: withReturns s)) := by
  have hplain : AsciiSet.whitespace.has quote = false ∧ quote ≠ '\x5c' := by
    rcases hquote with rfl | rfl <;> decide
  have hhash : quote ≠ '#' := by
    rcases hquote with rfl | rfl <;> decide
  have hfront : ∀ c ∈ [quote, quote], AsciiSet.whitespace.has c = false := by
    simp [hplain.1]
  have hbody : (if syn.triple then [quote, quote].isPrefixOf? (withReturns s) else none) =
      (if syn.triple then [quote, quote].isPrefixOf? s else none).map withReturns := by
    split
    · exact isPrefixOf?_withReturns hfront s
    · rfl
  simp only [scanQuoted, if_neg hhash, hbody, hmultiline] at hline ⊢
  cases hthree : if syn.triple then [quote, quote].isPrefixOf? s else none with
  | some body =>
      have hrest := Quoted.tripleRest_withReturns hplain body
      show Option.Rel Match.Follows (some ⟨syn.tripleKind, Quoted.tripleRest quote body⟩)
        (some ⟨syn.tripleKind, Quoted.tripleRest quote (withReturns body)⟩)
      rw [hrest]
      exact .some (Match.follows_withReturns _)
  | none =>
      rw [hthree] at hline
      refine .some (Match.follows_of_samePlace (by rw [hkind]; decide) ?_)
      refine Quoted.samePlace_rest hplain _ s ?_
      exact notMem_before (hline _ rfl hkind) (List.suffix_cons quote s) (Quoted.rest_suffix ..)

theorem follows_scan (haffixes : ∀ c ∈ syn.affixes, AsciiSet.whitespace.has c = false)
    (hhashed : syn.hashedRaw = false) (hbacktick : syn.rawBacktick = false)
    (hmultiline : syn.multiline = false) (hkind : syn.kind = .string) :
    Rule.Follows syn.scan := by
  refine Rule.follows_firstOf fun rule hmem => ?_
  simp only [List.mem_cons, List.not_mem_nil, or_false] at hmem
  rcases hmem with rfl | rfl
  · have hnone (s : List Char) : syn.scanBacktick s = none := by
      cases s with
      | nil => rfl
      | cons c s => rw [scanBacktick, if_neg (by simp [hbacktick])]
    intro s _
    rw [hnone, hnone]
    exact .none
  · intro s hline
    unfold scanAffixed at hline ⊢
    rw [affix?_withReturns haffixes]
    cases haffix : syn.affix? s with
    | none => exact .none
    | some affix =>
        rw [haffix] at hline
        obtain ⟨quote, t, rfl, hletters, hopens⟩ := affix?_eq_some haffix
        have hquote : quote = '\x22' ∨ quote = '\x27' := by
          simp [opens, hhashed] at hopens
          exact hopens.imp And.right And.right
        have hnewline : '\n' ∉ affix := fun hmem =>
          absurd (haffixes _ (hletters _ hmem)) (by decide)
        have hne : quote ≠ '\n' := by
          rcases hquote with rfl | rfl <;> decide
        dsimp only at hline ⊢
        rw [drop_withReturns (List.prefix_append ..) hnewline]
        rw [List.drop_left] at hline ⊢
        rw [withReturns_cons hne]
        refine follows_scanQuoted hquote hmultiline hkind affix fun found hfound hstring => ?_
        exact notMem_before (hline found hfound hstring) (List.suffix_append ..)
          ((consumes_scanQuoted syn affix quote t found hfound).trans (List.suffix_cons ..))

end StringSyntax

end Highlight
