import Highlight.Reader
import Highlight.Rule

/-!
# Operators

The spellings of a language are grouped by length, and the longest group with a match decides.
-/

namespace Highlight

/-- The operators of a language, by the number of bytes they take. -/
structure OperatorSyntax where
  four : List String := []
  three : List String := []
  two : List String := []
  /-- The operators of one character. -/
  one : String := ""
  deriving DecidableEq, Repr

namespace OperatorSyntax

/-- Whether a text begins with one of the spellings. -/
def matchesAny (spellings : List String) (s : List Char) : Bool :=
  spellings.any fun op => op.toList.isPrefixOf s

/-- Number of bytes of the longest operator at the front of a text. -/
def length? (syn : OperatorSyntax) (s : List Char) : Option Nat :=
  if matchesAny syn.four s then some 4
  else if matchesAny syn.three s then some 3
  else if matchesAny syn.two s then some 2
  else
    match s with
    | [] => none
    | c :: _ => if syn.one.toList.contains c then some 1 else none

/-- An operator. -/
def scan (syn : OperatorSyntax) : Rule := fun s =>
  (syn.length? s).map fun n => ⟨.operator, dropBytes n s⟩

/-- Whether one of the spellings is at an offset. -/
def readsAny (spellings : List String) (buffer : Buffer) (offset : Nat) : Bool :=
  spellings.any fun op => buffer.startsWith offset op.toList

/-- Number of bytes of the longest operator at an offset. -/
def lengthAt? (syn : OperatorSyntax) (buffer : Buffer) (offset : Nat) : Option Nat :=
  if readsAny syn.four buffer offset then some 4
  else if readsAny syn.three buffer offset then some 3
  else if readsAny syn.two buffer offset then some 2
  else if syn.one.toList.any (buffer.reads offset) then some 1
  else none

/-- An operator in place. -/
def read (syn : OperatorSyntax) : Reader := fun buffer start =>
  (syn.lengthAt? buffer start).map fun n => ⟨.operator, start + n⟩

/-- Whether the first character of an operator is ASCII. -/
def startsAscii (op : String) : Bool :=
  op.toList.head?.any fun c => c.toNat < 128

/-- Spellings that take something: each of them begins with an ASCII character. -/
def sound (syn : OperatorSyntax) : Bool :=
  (syn.four ++ syn.three ++ syn.two).all startsAscii && syn.one.toList.all fun c => c.toNat < 128

theorem ascii_of_matchesAny {spellings : List String} {c : Char} {s : List Char}
    (hall : ∀ op ∈ spellings, startsAscii op = true) (h : matchesAny spellings (c :: s) = true) :
    c.toNat < 128 := by
  obtain ⟨op, hmem, hpre⟩ := List.any_eq_true.1 h
  have hop := hall op hmem
  unfold startsAscii at hop
  cases hcs : op.toList with
  | nil => simp [hcs] at hop
  | cons m ms =>
      simp only [hcs, List.isPrefixOf, Bool.and_eq_true, beq_iff_eq] at hpre
      simpa [hcs, hpre.1] using hop

theorem length?_pos_and_ascii {syn : OperatorSyntax} (hs : syn.sound = true) {c : Char}
    {s : List Char} {n : Nat} (h : syn.length? (c :: s) = some n) : 0 < n ∧ c.toNat < 128 := by
  simp only [sound, Bool.and_eq_true, List.all_eq_true, List.mem_append] at hs
  simp only [length?] at h
  split at h
  · next hm =>
      cases h
      exact ⟨by omega, ascii_of_matchesAny (fun op ho => hs.1 op (.inl (.inl ho))) hm⟩
  · split at h
    · next hm =>
        cases h
        exact ⟨by omega, ascii_of_matchesAny (fun op ho => hs.1 op (.inl (.inr ho))) hm⟩
    · split at h
      · next hm =>
          cases h
          exact ⟨by omega, ascii_of_matchesAny (fun op ho => hs.1 op (.inr ho)) hm⟩
      · split at h
        · next hm =>
            cases h
            exact ⟨by omega, by simpa using hs.2 c (by simpa using hm)⟩
        · cases h

theorem consumes_scan {syn : OperatorSyntax} (hs : syn.sound = true) :
    Rule.Consumes syn.scan := by
  intro c s r hr
  obtain ⟨n, hn, rfl⟩ := Option.map_eq_some_iff.1 hr
  obtain ⟨hpos, hascii⟩ := length?_pos_and_ascii hs hn
  rw [dropBytes_cons_of_ascii hascii hpos]
  exact dropBytes_suffix ..

end OperatorSyntax

end Highlight
