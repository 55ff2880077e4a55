import Highlight.AsciiSet
import Highlight.Bytes
import Highlight.Unicode.Alphabetic
import Highlight.Unicode.Numeric

/-!
# Searches among bytes

A scan need not know characters. The end of a word, of a quoted text or of a comment is found among
the bytes of a text, where a class of ASCII characters is a class of bytes, a marker is a sequence
of bytes, and the first byte of a character tells how many there are. A search is given the bytes
from an offset on and leaves an ending of them.
-/

namespace Highlight

/-- Whether a byte is that of a member. -/
def AsciiSet.hasByte (set : AsciiSet) (byte : UInt8) : Bool :=
  set.has (Char.ofUInt8 byte)

namespace ByteScan

/-- The byte of an ASCII letter in lower case, and any other byte as it is. -/
def lower (byte : UInt8) : UInt8 :=
  if 0x41 ≤ byte ∧ byte ≤ 0x5A then byte + 0x20 else byte

/-- Whether bytes begin with a marker, where ASCII letters match either case. -/
def startsIgnoringCase (marker s : List UInt8) : Bool :=
  (s.take marker.length).map lower == marker.map lower

/-- What is left behind the character that begins with the first byte. -/
def character : List UInt8 → List UInt8
  | [] => []
  | byte :: s => (byte :: s).drop (charWidth byte)

theorem length_character_le (s : List UInt8) : (character s).length ≤ s.length := by
  cases s with
  | nil => exact Nat.le_refl 0
  | cons byte s =>
      rw [character, List.length_drop]
      exact Nat.sub_le ..

/-- What is left behind a word. -/
def word (set : AsciiSet) : List UInt8 → List UInt8
  | [] => []
  | byte :: s =>
    if byte < 0x80 then
      if set.hasByte byte then word set s else byte :: s
    else
      match (byte :: s).toByteArray.utf8DecodeChar? 0 with
      | none => byte :: s
      | some c =>
        if Unicode.isAlphabetic c || Unicode.isNumeric c then word set (s.drop (c.utf8Size - 1))
        else byte :: s
termination_by s => s.length
decreasing_by
  all_goals simp only [List.length_cons, List.length_drop]
  all_goals omega

theorem length_word_le (set : AsciiSet) (s : List UInt8) : (word set s).length ≤ s.length := by
  fun_induction word set s with
  | case1 => exact Nat.le_refl 0
  | case2 byte s _ _ ih => exact Nat.le_succ_of_le ih
  | case3 => exact Nat.le_refl _
  | case4 => exact Nat.le_refl _
  | case5 byte s _ c _ _ ih =>
      rw [List.length_drop] at ih
      exact Nat.le_succ_of_le (Nat.le_trans ih (Nat.sub_le ..))
  | case6 => exact Nat.le_refl _

/-- What is left behind a quoted text that is closed by a quote and `more` others behind it. -/
def quoted (quote : UInt8) (more : Nat) (escapes multiline : Bool) : List UInt8 → List UInt8
  | [] => []
  | byte :: s =>
    if byte = quote then
      if (List.replicate more quote).isPrefixOf s then s.drop more
      else quoted quote more escapes multiline s
    else if byte = 0x0A ∧ multiline = false then byte :: s
    else if byte = 0x5C ∧ escapes = true then quoted quote more escapes multiline (character s)
    else quoted quote more escapes multiline s
termination_by s => s.length
decreasing_by
  all_goals have := length_character_le s
  all_goals simp only [List.length_cons]
  all_goals omega

/-- What is left behind the first occurrence of a marker. -/
def behind (marker : List UInt8) : List UInt8 → List UInt8
  | [] => []
  | byte :: s =>
    if marker.isPrefixOf (byte :: s) then (byte :: s).drop marker.length else behind marker s

/-- What is left behind a comment with a number of others open around it. -/
def nestedLoop (opening closing : List UInt8) (depth : Nat) : List UInt8 → List UInt8
  | [] => []
  | byte :: s =>
    if closing.isPrefixOf (byte :: s) then
      if depth = 0 then s.drop (closing.length - 1)
      else nestedLoop opening closing (depth - 1) (s.drop (closing.length - 1))
    else if opening.isPrefixOf (byte :: s) then
      nestedLoop opening closing (depth + 1) (s.drop (opening.length - 1))
    else nestedLoop opening closing depth s
termination_by s => s.length
decreasing_by
  all_goals simp only [List.length_cons, List.length_drop]
  all_goals omega

/-- What is left behind a comment that may hold others, and nothing if a marker is empty. -/
def nested (opening closing s : List UInt8) : List UInt8 :=
  if opening = [] ∨ closing = [] then [] else nestedLoop opening closing 0 s

end ByteScan

end Highlight
