import Highlight.AsciiSet
import Highlight.Text
import Highlight.Unicode.Alphabetic
import Highlight.Unicode.Numeric

/-!
# Words

Identifiers, names and suffixes are words: a first character and a run of further ones. ASCII
characters count as a language says, by two sets; beyond ASCII a word starts with an Alphabetic
character and goes on with Alphabetic characters and numbers of any category.
-/

namespace Highlight

/-- Whether a character may start a word, given the ASCII characters that may. -/
def startsWord (start : AsciiSet) (c : Char) : Bool :=
  if c.toNat < 128 then start.has c else Unicode.isAlphabetic c

/-- Whether a character may go on a word, given the ASCII characters that may. -/
def continuesWord (set : AsciiSet) (c : Char) : Bool :=
  if c.toNat < 128 then set.has c else Unicode.isAlphabetic c || Unicode.isNumeric c

/-- Whether a word starts at the front of a text. -/
def atWord (start : AsciiSet) : List Char → Bool
  | [] => false
  | c :: _ => startsWord start c

/-- The characters at the front of a text that go on a word. -/
def wordOf (set : AsciiSet) (s : List Char) : List Char :=
  s.takeWhile (continuesWord set)

/-- The rest of a text behind the characters that go on a word. -/
def behindWord (set : AsciiSet) (s : List Char) : List Char :=
  s.dropWhile (continuesWord set)

@[simp] theorem wordOf_append_behindWord (set : AsciiSet) (s : List Char) :
    wordOf set s ++ behindWord set s = s :=
  List.takeWhile_append_dropWhile

theorem behindWord_suffix (set : AsciiSet) (s : List Char) : behindWord set s <:+ s :=
  List.dropWhile_suffix _

/-- The identifier at the front of a text: a letter or underscore, then letters, underscores and
digits. -/
def identifierOf (s : List Char) : List Char :=
  wordOf .identContinue s

/-- The rest behind an identifier, if there is one. -/
def behindIdentifier? (s : List Char) : Option (List Char) :=
  if atWord .identStart s then some (behindWord .identContinue s) else none

/-- What may start a word may also go on one. -/
theorem continuesWord_of_startsWord {start set : AsciiSet} {c : Char}
    (hsub : start.has c = true → set.has c = true) (h : startsWord start c = true) :
    continuesWord set c = true := by
  simp only [startsWord, continuesWord] at h ⊢
  split at h
  · next hlt => rw [if_pos hlt]; exact hsub h
  · next hlt => rw [if_neg hlt, h]; rfl

theorem behindWord_cons {set : AsciiSet} {c : Char} {s : List Char}
    (h : continuesWord set c = true) : behindWord set (c :: s) = behindWord set s := by
  simp [behindWord, h]

/-- From a first character that goes on, a word takes at least that character. -/
theorem behindWord_suffix_tail {set : AsciiSet} {c : Char} {s : List Char}
    (h : continuesWord set c = true) : behindWord set (c :: s) <:+ s := by
  rw [behindWord_cons h]
  exact behindWord_suffix set s

theorem continues_of_identStart {c : Char} (h : startsWord .identStart c = true) :
    continuesWord .identContinue c = true :=
  continuesWord_of_startsWord (fun hc => by simp [AsciiSet.identContinue, AsciiSet.union, hc]) h

theorem behindIdentifier?_suffix_tail {c : Char} {s rest : List Char}
    (h : behindIdentifier? (c :: s) = some rest) : rest <:+ s := by
  by_cases hc : startsWord .identStart c = true
  · simp only [behindIdentifier?, atWord, hc, if_true, Option.some.injEq] at h
    exact h ▸ behindWord_suffix_tail (continues_of_identStart hc)
  · simp [behindIdentifier?, atWord, hc] at h

theorem behindIdentifier?_suffix {s rest : List Char} (h : behindIdentifier? s = some rest) :
    rest <:+ s := by
  cases s with
  | nil => simp [behindIdentifier?, atWord] at h
  | cons c s => exact (behindIdentifier?_suffix_tail h).trans (List.suffix_cons c s)

end Highlight
