import Highlight.Interpolation
import Highlight.Proofs.Buffers

/-!
# Literal text up to the end of its line

In place, literal text is not read newline by newline. Where a newline ends the string, the end of
the line is looked for once, and from then on only what is in front of it is searched, for the three
characters that may mean something there. The limit has to be right whenever the search goes on. It
moves when a backslash is the last character in front of it, since then the newline is escaped and
the text goes on in the next line; and a step that takes a character for granted might pass it.

`textLoop_eq` is the invariant: with the end of the line as its limit, the search comes to what
`text` leaves. It looks at one character for each character that `text` stops at, a newline
excepted, and the newline is where the search comes to its limit. With that the search agrees with a
reader that takes one character after the other, which is `textStop_eq_readText`.
-/

namespace Highlight.TemplateSyntax

variable {style : TemplateSyntax} {buffer : Buffer} {offset : Nat} {c d : Char}
  {s front rest : List Char}

/-- Whether a character ends the line and with it the string. -/
def EndsLine (style : TemplateSyntax) (c : Char) : Prop :=
  style.singleLine = true ∧ c = '\n'

instance (style : TemplateSyntax) (c : Char) : Decidable (style.EndsLine c) :=
  inferInstanceAs (Decidable (_ ∧ _))

/-- What the text of a string may not get past on its line: the newline, with what is behind it,
where a newline ends the string. -/
def beyond (style : TemplateSyntax) (s : List Char) : List Char :=
  if style.singleLine then fromNewline s else []

theorem beyond_suffix (style : TemplateSyntax) (s : List Char) : style.beyond s <:+ s := by
  unfold beyond
  split
  · exact fromNewline_suffix s
  · exact List.nil_suffix

theorem lineLimit_eq (hs : buffer.At offset s) :
    style.lineLimit buffer offset = buffer.offsetOf (style.beyond s) := by
  rw [lineLimit, beyond]
  split
  · exact hs.line_eq
  · exact buffer.offsetOf_nil.symm

theorem beyond_cons_of_endsLine (h : style.EndsLine c) (s : List Char) :
    style.beyond (c :: s) = c :: s := by
  obtain ⟨hsingle, rfl⟩ := h
  rw [beyond, if_pos hsingle]
  rfl

theorem beyond_cons (h : ¬ style.EndsLine c) (s : List Char) :
    style.beyond (c :: s) = style.beyond s := by
  rw [beyond, beyond]
  split
  · next hsingle => exact List.dropWhile_cons_of_pos (bne_iff_ne.2 fun hc => h ⟨hsingle, hc⟩)
  · rfl

theorem beyond_append (h : ∀ d ∈ front, ¬ style.EndsLine d) (s : List Char) :
    style.beyond (front ++ s) = style.beyond s := by
  induction front with
  | nil => rfl
  | cons d front ih =>
      rw [List.forall_mem_cons] at h
      rw [List.cons_append, beyond_cons h.1, ih h.2]

/-- A text up to its limit. -/
theorem exists_beyond (style : TemplateSyntax) (s : List Char) :
    ∃ front, s = front ++ style.beyond s ∧ ∀ d ∈ front, ¬ style.EndsLine d := by
  induction s with
  | nil => exact ⟨[], (List.suffix_nil.1 (style.beyond_suffix [])).symm, nofun⟩
  | cons c s ih =>
      by_cases hc : style.EndsLine c
      · exact ⟨[], (beyond_cons_of_endsLine hc s).symm, nofun⟩
      · obtain ⟨front, hsplit, hfront⟩ := ih
        rw [beyond_cons hc]
        exact ⟨c :: front, congrArg (c :: ·) hsplit, List.forall_mem_cons.2 ⟨hc, hfront⟩⟩

/-- A text up to the first character of a class. -/
theorem exists_first {q : Char → Bool} (h : ¬ ∀ d ∈ s, q d = false) :
    ∃ front c t, s = front ++ c :: t ∧ (∀ d ∈ front, q d = false) ∧ q c = true := by
  have hback := Stops.dropWhile (!q ·) s
  have hfront : ∀ d ∈ s.takeWhile (!q ·), q d = false := fun d hd => by
    simpa using @List.mem_takeWhile_imp _ (!q ·) s d hd
  have hsplit := @List.takeWhile_append_dropWhile _ (!q ·) s
  cases hcons : s.dropWhile (!q ·) with
  | nil =>
      rw [hcons, List.append_nil] at hsplit
      rw [hsplit] at hfront
      exact absurd hfront h
  | cons c t =>
      rw [hcons] at hsplit hback
      exact ⟨_, c, t, hsplit.symm, hfront, by simpa using hback.head⟩

/-- A search up to the limit finds the first character it is looking for, if that is in front of a
newline that ends the string, and nothing otherwise. -/
theorem find?_beyond (style : TemplateSyntax) {p : UInt8 → Bool} {q : Char → Bool}
    (hp : Represents p q) (hs : buffer.At offset s) :
    (buffer.find? p offset (buffer.offsetOf (style.beyond s)) = none ∧
      ∃ front, s = front ++ style.beyond s ∧ ∀ d ∈ front, q d = false ∧ ¬ style.EndsLine d) ∨
    ∃ front c t, s = front ++ c :: t ∧ (∀ d ∈ front, q d = false ∧ ¬ style.EndsLine d) ∧
      q c = true ∧
      buffer.find? p offset (buffer.offsetOf (style.beyond s)) =
        some (offset + byteSize front) := by
  obtain ⟨front, hsplit, hline⟩ := style.exists_beyond s
  have hs' : buffer.At offset (front ++ style.beyond s) := hsplit ▸ hs
  rw [hs'.find?_eq p]
  by_cases hplain : ∀ d ∈ front, q d = false
  · refine .inl ⟨?_, front, hsplit, fun d hd => ⟨hplain d hd, hline d hd⟩⟩
    rw [hp.findIdx?_eq_none hplain, Option.map_none]
  · obtain ⟨before, c, mid, rfl, hbefore, hc⟩ := exists_first hplain
    have hsplit' : s = before ++ c :: (mid ++ style.beyond s) := by
      rw [← List.cons_append, ← List.append_assoc]
      exact hsplit
    refine .inr ⟨before, c, mid ++ style.beyond s, hsplit', fun d hd => ⟨hbefore d hd, ?_⟩, hc, ?_⟩
    · exact hline d (List.mem_append_left _ hd)
    · rw [hp.findIdx?_append_cons hbefore hc, Option.map_some]

/-- Whether a character may mean something in literal text, wherever a line ends. -/
def marksText (style : TemplateSyntax) (c : Char) : Bool :=
  c == style.quote || c == '\x5c' || c == style.opener

theorem stops_eq (style : TemplateSyntax) (c : Char) :
    style.stops c = (style.marksText c || decide (style.EndsLine c)) := by
  have hline : decide (style.EndsLine c) = (style.singleLine && c == '\n') := by
    rw [Bool.eq_iff_iff, decide_eq_true_iff, Bool.and_eq_true, beq_iff_eq]
    rfl
  rw [stops, marksText, hline]

theorem stops_eq_false_iff :
    style.stops c = false ↔ style.marksText c = false ∧ ¬ style.EndsLine c := by
  rw [stops_eq, Bool.or_eq_false_iff, decide_eq_false_iff_not]

theorem ascii_opener (style : TemplateSyntax) : style.opener.toNat < 128 := by
  rw [opener]
  split <;> decide

theorem Quoted.ascii (h : style.Quoted) : style.quote.toNat < 128 := by
  rcases h with h | h | h <;> rw [h] <;> decide

theorem Quoted.not_endsLine (h : style.Quoted) (hc : style.marksText c = true) :
    ¬ style.EndsLine c := by
  rintro ⟨-, rfl⟩
  simp only [marksText, Bool.or_eq_true, beq_iff_eq] at hc
  rcases hc with (hc | hc) | hc
  · exact h.ne '\n' (by decide) hc.symm
  · exact absurd hc (by decide)
  · exact style.opener_ne '\n' (by decide) hc.symm

theorem Quoted.represents_marks (h : style.Quoted) : Represents style.marks style.marksText :=
  ((represents_beq h.ascii).or (represents_beq (d := '\x5c') (by decide))).or
    (represents_beq style.ascii_opener)

theorem text_append_of_plain (h : ∀ d ∈ front, style.stops d = false) (s : List Char) :
    style.text (front ++ s) = style.text s := by
  induction front with
  | nil => rfl
  | cons d front ih =>
      rw [List.forall_mem_cons] at h
      rw [List.cons_append, text_cons_of_plain h.1, ih h.2]

theorem text_cons_of_endsLine (h : style.EndsLine c) (s : List Char) :
    style.text (c :: s) = (.unterminated, c :: s) := by
  have hstop : style.stops c = true := by rw [stops_eq, decide_eq_true h, Bool.or_true]
  rw [text_cons_of_stops hstop]
  obtain ⟨hsingle, rfl⟩ := h
  dsimp only [textScan]
  rw [if_pos ⟨hsingle, rfl⟩]
  rfl

/-- With the end of the line as its limit, the search comes to what literal text leaves, from
wherever it goes on in a text. -/
def Searches (style : TemplateSyntax) (buffer : Buffer) (s : List Char) : Prop :=
  ∀ i t, t <:+ s → buffer.At i t →
    style.textLoop buffer (buffer.offsetOf (style.beyond t)) i =
      (style.text t).map id buffer.offsetOf

/-- Where a character is left in front of the limit, to keep to the limit changes nothing. -/
theorem Searches.clamp (h : style.Searches buffer s) (hsuffix : rest <:+ s)
    (hrest : buffer.At offset rest) :
    style.textLoop buffer (buffer.offsetOf (style.beyond rest))
        (min offset (buffer.offsetOf (style.beyond rest))) =
      (style.text rest).map id buffer.offsetOf := by
  rw [Nat.min_eq_left (hrest.le_offsetOf (style.beyond_suffix rest))]
  exact h offset rest hsuffix hrest

/-! ## At a character that may mean something

The search has found one of the three characters, with the line limit of what is in front of it. It
comes to what literal text leaves there, if it does so further on. -/

section Marks

variable {i : Nat}

theorem textLoop_escape (hs : buffer.At i ('\x5c' :: s))
    (hfind : buffer.find? style.marks offset (buffer.offsetOf (style.beyond s)) = some i)
    (hmore : style.Searches buffer s) :
    style.textLoop buffer (buffer.offsetOf (style.beyond s)) offset =
      (style.text ('\x5c' :: s)).map id buffer.offsetOf := by
  have htail : buffer.At (i + 1) s := hs.tail (by decide)
  rw [textLoop]
  split
  · next hnone => rw [hfind] at hnone; cases hnone
  · next hsome =>
      cases hfind.symm.trans hsome
      rw [hs.reads_eq (by decide), List.head?_cons, if_pos (beq_self_eq_true _), text_escape]
      cases s with
      | nil =>
          rw [if_pos (htail.length_le_iff.2 rfl), List.drop_nil, text_nil]
          exact congrArg (Prod.mk _) buffer.offsetOf_nil.symm
      | cons d s =>
          rw [if_neg (mt htail.length_le_iff.1 (List.cons_ne_nil d s)), htail.next_cons,
            List.drop_one, List.tail_cons]
          have hnext := htail.of_suffix (List.suffix_cons d s)
          by_cases hd : style.EndsLine d
          · -- The escaped newline is at the limit, which moves on to the end of the next line.
            have hlimit : i + 1 = buffer.offsetOf (style.beyond (d :: s)) := by
              rw [beyond_cons_of_endsLine hd]
              exact htail.eq_offsetOf
            have hbehind : buffer.At (i + 2) s := htail.tail (by rw [hd.2]; decide)
            rw [if_pos hlimit, lineLimit_eq hbehind]
            exact hmore.clamp (List.suffix_cons d s) hnext
          · have hlimit := Nat.ne_of_lt (htail.lt_offsetOf (style.beyond_suffix s))
            rw [beyond_cons hd, if_neg hlimit]
            exact hmore.clamp (List.suffix_cons d s) hnext

theorem textLoop_quote (hq : style.Quoted) (hs : buffer.At i (style.quote :: s))
    (hfind : buffer.find? style.marks offset (buffer.offsetOf (style.beyond s)) = some i)
    (hmore : style.Searches buffer s) :
    style.textLoop buffer (buffer.offsetOf (style.beyond s)) offset =
      (style.text (style.quote :: s)).map id buffer.offsetOf := by
  have htail := hs.tail hq.ascii
  have hescape : style.quote ≠ '\x5c' := hq.ne '\x5c' (by decide)
  rw [textLoop]
  split
  · next hnone => rw [hfind] at hnone; cases hnone
  · next hsome =>
      cases hfind.symm.trans hsome
      rw [hs.reads_eq (by decide), List.head?_cons, if_neg (by simpa using hescape),
        hs.reads_eq hq.ascii, List.head?_cons, if_pos (beq_self_eq_true _), text_quote hq,
        hmore.clamp List.suffix_rfl htail, hs.startsWith_quotes]
      cases style.triple with
      | false => exact congrArg (Prod.mk _) htail.eq_offsetOf
      | true =>
          cases hbehind : [style.quote, style.quote].isPrefixOf? s with
          | none => rfl
          | some behind =>
              have hthree := hs.behind_quotes hq.ascii hbehind
              exact congrArg (Prod.mk _) hthree.eq_offsetOf

theorem textLoop_opener (hq : style.Quoted) (hs : buffer.At i (style.opener :: s))
    (hfind : buffer.find? style.marks offset (buffer.offsetOf (style.beyond s)) = some i)
    (hmore : style.Searches buffer s) :
    style.textLoop buffer (buffer.offsetOf (style.beyond s)) offset =
      (style.text (style.opener :: s)).map id buffer.offsetOf := by
  have htail := hs.tail style.ascii_opener
  have hescape : style.opener ≠ '\x5c' := style.opener_ne '\x5c' (by decide)
  have hfield : (TextEnd.field, i) =
      Prod.map id buffer.offsetOf (TextEnd.field, style.opener :: s) :=
    congrArg (Prod.mk _) hs.eq_offsetOf
  rw [textLoop]
  split
  · next hnone => rw [hfind] at hnone; cases hnone
  · next hsome =>
      cases hfind.symm.trans hsome
      rw [hs.reads_eq (by decide), List.head?_cons, if_neg (by simpa using hescape),
        hs.reads_eq hq.ascii, List.head?_cons, if_neg (by simpa using hq.ne_opener.symm),
        htail.reads_eq (by decide), hmore.clamp List.suffix_rfl htail, text_opener hq]
      by_cases hbrace : s.head? = some '\x7b'
      · rw [if_pos (beq_iff_eq.2 hbrace), if_pos hbrace, if_pos hbrace]
        cases style.dollar with
        | true => exact hfield
        | false =>
            obtain ⟨t, rfl⟩ := List.head?_eq_some_iff.1 hbrace
            exact hmore.clamp (List.suffix_cons _ t) (htail.tail (by decide))
      · rw [if_neg (mt beq_iff_eq.1 hbrace), if_neg hbrace, if_neg hbrace]
        cases style.dollar with
        | true => rfl
        | false => exact hfield

theorem textLoop_of_marks (hq : style.Quoted) (hc : style.marksText c = true)
    (hs : buffer.At i (c :: s))
    (hfind : buffer.find? style.marks offset (buffer.offsetOf (style.beyond s)) = some i)
    (hmore : style.Searches buffer s) :
    style.textLoop buffer (buffer.offsetOf (style.beyond s)) offset =
      (style.text (c :: s)).map id buffer.offsetOf := by
  simp only [marksText, Bool.or_eq_true, beq_iff_eq] at hc
  rcases hc with (rfl | rfl) | rfl
  · exact textLoop_quote hq hs hfind hmore
  · exact textLoop_escape hs hfind hmore
  · exact textLoop_opener hq hs hfind hmore

end Marks

theorem text_beyond (style : TemplateSyntax) (s : List Char) :
    style.text (style.beyond s) = (.unterminated, style.beyond s) := by
  induction s with
  | nil => rw [List.suffix_nil.1 (style.beyond_suffix []), text_nil]
  | cons c s ih =>
      by_cases hc : style.EndsLine c
      · rw [beyond_cons_of_endsLine hc, text_cons_of_endsLine hc]
      · rw [beyond_cons hc, ih]

/-- With the end of the line as its limit, the search comes to what literal text leaves. -/
theorem textLoop_eq (hq : style.Quoted) (hs : buffer.At offset s) :
    style.textLoop buffer (buffer.offsetOf (style.beyond s)) offset =
      (style.text s).map id buffer.offsetOf := by
  induction hlength : s.length using Nat.strongRecOn generalizing s offset with
  | _ length ih =>
      subst hlength
      rcases style.find?_beyond hq.represents_marks hs with ⟨hfind, front, hsplit, hplain⟩ |
        ⟨front, c, t, rfl, hplain, hc, hfind⟩
      · have htext : style.text s = (.unterminated, style.beyond s) := by
          conv_lhs => rw [hsplit]
          rw [text_append_of_plain fun d hd => stops_eq_false_iff.2 (hplain d hd), text_beyond]
        rw [textLoop, htext]
        split
        · rfl
        · next hsome => rw [hfind] at hsome; cases hsome
      · have hbeyond : style.beyond (front ++ c :: t) = style.beyond t := by
          rw [beyond_append fun d hd => (hplain d hd).2, beyond_cons (hq.not_endsLine hc)]
        rw [hbeyond] at hfind ⊢
        rw [text_append_of_plain fun d hd => stops_eq_false_iff.2 (hplain d hd)]
        refine textLoop_of_marks hq hc hs.append hfind fun i u ht hj => ih _ ?_ hj rfl
        rw [List.length_append, List.length_cons]
        exact Nat.lt_of_le_of_lt ht.length_le (by omega)

/-- In place a run of literal text ends where it does in the text. -/
theorem textStop_eq (hq : style.Quoted) (hs : buffer.At offset s) :
    style.textStop buffer offset = (style.text s).map id buffer.offsetOf := by
  rw [textStop, lineLimit_eq hs]
  exact textLoop_eq hq hs

theorem endsSpec_eq_false_iff :
    style.endsSpec c = false ↔
      (c == '\x7b' || c == '\x7d' || c == style.quote) = false ∧ ¬ style.EndsLine c := by
  rw [endsSpec, Bool.or_eq_false_iff]
  simp [EndsLine]

theorem specRest_beyond (style : TemplateSyntax) (s : List Char) :
    style.specRest (style.beyond s) = style.beyond s := by
  induction s with
  | nil => rw [List.suffix_nil.1 (style.beyond_suffix [])]; rfl
  | cons c s ih =>
      by_cases hc : style.EndsLine c
      · rw [beyond_cons_of_endsLine hc]
        refine List.dropWhile_cons_of_neg fun hends => ?_
        exact (endsSpec_eq_false_iff.1 (by simpa using hends)).2 hc
      · rw [beyond_cons hc, ih]

/-- A run of the text of a format specification is a search up to the same limit. -/
theorem specStop_eq (hq : style.Quoted) (hs : buffer.At offset s) :
    style.specStop buffer offset = buffer.offsetOf (style.specRest s) := by
  have hends : Represents (fun byte => byte == 0x7B || byte == 0x7D || byte == style.quote.toUInt8)
      (fun c => c == '\x7b' || c == '\x7d' || c == style.quote) :=
    ((represents_beq (d := '\x7b') (by decide)).or (represents_beq (d := '\x7d') (by decide))).or
      (represents_beq hq.ascii)
  have hrest {front back : List Char} (hplain : ∀ d ∈ front,
      (d == '\x7b' || d == '\x7d' || d == style.quote) = false ∧ ¬ style.EndsLine d) :
      style.specRest (front ++ back) = style.specRest back :=
    List.dropWhile_append_of_pos fun d hd => by
      rw [endsSpec_eq_false_iff.2 (hplain d hd)]
      rfl
  rw [specStop, lineLimit_eq hs]
  rcases style.find?_beyond hends hs with ⟨hfind, front, hsplit, hplain⟩ |
    ⟨front, c, t, rfl, hplain, hc, hfind⟩
  · have hbeyond : style.specRest s = style.beyond s := by
      conv_lhs => rw [hsplit]
      rw [hrest hplain, specRest_beyond]
    rw [hfind, Option.getD_none, hbeyond]
  · have hfound : style.specRest (c :: t) = c :: t :=
      List.dropWhile_cons_of_neg (by simp [endsSpec, hc])
    rw [hfind, Option.getD_some, hrest hplain, hfound, hs.append.eq_offsetOf]

/-- From between two characters of a text, the search for the end of a run of literal text ends for
the reason and at the offset that a reader comes to. -/
theorem textStop_eq_readText (hq : style.Quoted) {text : List Char}
    (h : IsBoundary text offset) :
    style.textStop (.ofText text) offset =
      style.readText false 0 offset (dropBytes offset text) := by
  obtain ⟨front, back, rfl, rfl⟩ := isBoundary_iff_append.1 h
  have hread := text_eq_readText hq h
  rw [dropBytes_byteSize_append] at hread ⊢
  rw [← hread, textStop_eq hq (Buffer.at_ofText_append front back), Prod.map, Buffer.offsetOf,
    Buffer.length_eq]
  rfl

/-- An escaped newline moves the limit to the end of the next line. -/
theorem textStop_behind_escaped_newline :
    let style : TemplateSyntax := { quote := '\x22', kind := .string }
    let text := ['\u00e9', '\x5c', '\n', '\x5c', '\u00e9', '\x7b', '\x7b', '\n', '\x22']
    style.Quoted ∧ IsBoundary text 2 ∧
      style.textStop (.ofText text) 2 = (.unterminated, 9) := by
  intro style text
  have hq : style.Quoted := .inr (.inl rfl)
  have hbound : IsBoundary text 2 := isBoundary_append ['\u00e9'] _
  exact ⟨hq, hbound, (textStop_eq_readText hq hbound).trans (by decide)⟩

end Highlight.TemplateSyntax
