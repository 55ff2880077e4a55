/-!
# Texts and their ends

A text is a list of characters. Scanning never moves an index through it: a scanner takes the text
from where it stands and answers with the *rest*, the part it left over. What it took is then
`before`, and that the rest is an ending of the text is the only bound there is to prove.

Bytes come in as a measure. Lengths and offsets that the outside sees count the UTF-8 encoding, so
there is `byteSize`, and cutting a text at a byte count gives whole characters only.
-/

namespace Highlight

/-- Number of bytes of a text in UTF-8. -/
def byteSize : List Char → Nat
  | [] => 0
  | c :: s => c.utf8Size + byteSize s

@[simp] theorem byteSize_nil : byteSize [] = 0 := rfl

@[simp] theorem byteSize_cons (c : Char) (s : List Char) :
    byteSize (c :: s) = c.utf8Size + byteSize s := rfl

@[simp] theorem byteSize_append (s t : List Char) :
    byteSize (s ++ t) = byteSize s + byteSize t := by
  induction s with
  | nil => simp
  | cons c s ih => simp [ih, Nat.add_assoc]

/-- The part of a text in front of one of its endings. -/
def before (text rest : List Char) : List Char :=
  text.take (text.length - rest.length)

@[simp] theorem before_append (s rest : List Char) : before (s ++ rest) rest = s := by
  simp [before]

theorem before_append_of_suffix {text rest : List Char} (h : rest <:+ text) :
    before text rest ++ rest = text := by
  obtain ⟨s, rfl⟩ := h
  simp

/-- The whole characters that lie within the first bytes of a text. -/
def takeBytes : Nat → List Char → List Char
  | _, [] => []
  | n, c :: s => if c.utf8Size ≤ n then c :: takeBytes (n - c.utf8Size) s else []

/-- A text without the whole characters that lie within its first bytes. -/
def dropBytes : Nat → List Char → List Char
  | _, [] => []
  | n, c :: s => if c.utf8Size ≤ n then dropBytes (n - c.utf8Size) s else c :: s

@[simp] theorem takeBytes_append_dropBytes (n : Nat) (s : List Char) :
    takeBytes n s ++ dropBytes n s = s := by
  induction s generalizing n with
  | nil => rfl
  | cons c s ih =>
    simp only [takeBytes, dropBytes]
    split
    · simp [ih]
    · rfl

theorem dropBytes_suffix (n : Nat) (s : List Char) : dropBytes n s <:+ s :=
  ⟨takeBytes n s, takeBytes_append_dropBytes n s⟩

theorem dropBytes_zero (s : List Char) : dropBytes 0 s = s := by
  cases s with
  | nil => rfl
  | cons c s =>
    have := c.utf8Size_pos
    simp [dropBytes, show ¬ c.utf8Size ≤ 0 by omega]

theorem utf8Size_of_ascii {c : Char} (h : c.toNat < 128) : c.utf8Size = 1 := by
  have : c.val ≤ 127 := by
    rw [UInt32.le_iff_toNat_le]
    exact Nat.le_of_lt_succ h
  simp [Char.utf8Size, this]

theorem dropBytes_cons_of_ascii {c : Char} {s : List Char} {n : Nat} (hc : c.toNat < 128)
    (hn : 0 < n) : dropBytes n (c :: s) = dropBytes (n - 1) s := by
  simp [dropBytes, utf8Size_of_ascii hc, show 1 ≤ n from hn]

/-- The rest of a text from its first newline on; the newline is left in it. -/
def fromNewline (s : List Char) : List Char :=
  s.dropWhile (· != '\n')

theorem fromNewline_suffix (s : List Char) : fromNewline s <:+ s :=
  List.dropWhile_suffix _

/-- The rest of a text behind the first occurrence of a marker, and nothing if there is none. -/
def behind (marker : List Char) : List Char → List Char
  | [] => []
  | c :: s =>
    match marker.isPrefixOf? (c :: s) with
    | some rest => rest
    | none => behind marker s

theorem eq_append_of_isPrefixOf? {marker s rest : List Char}
    (h : marker.isPrefixOf? s = some rest) : s = marker ++ rest := by
  induction marker generalizing s with
  | nil => exact Option.some.inj h
  | cons m marker ih =>
    cases s with
    | nil => cases h
    | cons c s =>
      have h : (if m == c then marker.isPrefixOf? s else none) = some rest := h
      split at h
      · next hmc => rw [List.cons_append, ← ih h, eq_of_beq hmc]
      · cases h

theorem suffix_of_isPrefixOf? {marker s rest : List Char}
    (h : marker.isPrefixOf? s = some rest) : rest <:+ s :=
  ⟨marker, (eq_append_of_isPrefixOf? h).symm⟩

@[simp] theorem isPrefixOf?_append (marker rest : List Char) :
    marker.isPrefixOf? (marker ++ rest) = some rest := by
  induction marker with
  | nil => rfl
  | cons m marker ih =>
    show (if m == m then marker.isPrefixOf? (marker ++ rest) else none) = some rest
    rw [if_pos (beq_self_eq_true m), ih]

/-- A marker that is not empty takes the first character with it. -/
theorem suffix_tail_of_isPrefixOf? {marker s rest : List Char} {c : Char} (hne : marker ≠ [])
    (h : marker.isPrefixOf? (c :: s) = some rest) : rest <:+ s := by
  cases marker with
  | nil => exact absurd rfl hne
  | cons m marker =>
    have := eq_append_of_isPrefixOf? h
    simp only [List.cons_append, List.cons.injEq] at this
    exact ⟨marker, this.2.symm⟩

theorem behind_suffix (marker s : List Char) : behind marker s <:+ s := by
  induction s with
  | nil => simp [behind]
  | cons c s ih =>
    simp only [behind]
    split
    · next h => exact suffix_of_isPrefixOf? h
    · exact ih.trans (List.suffix_cons c s)

/-- Whether a text begins with a marker, where ASCII letters match either case. -/
def startsIgnoringCase : (marker s : List Char) → Bool
  | [], _ => true
  | _ :: _, [] => false
  | m :: marker, c :: s => m.toLower == c.toLower && startsIgnoringCase marker s

end Highlight
