import Highlight.Kind
import Highlight.AsciiSet
import Highlight.Text

/-!
# Rules

A rule looks at the front of a text and either recognises a construct there or declines. What it
recognised is told by the kind and by the rest. A language is mostly an ordered list of rules, and
the first that does not decline decides.

A rule may look arbitrarily far ahead, yet it must take something: `Rule.Consumes` says that
whatever a rule recognises includes the first character. The property passes to an ordered list,
so a language has it as soon as each of its rules does.
-/

namespace Highlight

/-- A construct recognised at the front of a text. -/
structure Match where
  kind : Kind
  /-- What is left behind the construct. -/
  rest : List Char
  deriving DecidableEq, Repr

/-- A way to recognise constructs. -/
abbrev Rule := List Char → Option Match

namespace Rule

/-- Whatever the rule recognises includes the first character of the text. -/
def Consumes (rule : Rule) : Prop :=
  ∀ (c : Char) (s : List Char) (r : Match), rule (c :: s) = some r → r.rest <:+ s

/-- The first rule of a list that does not decline. -/
def firstOf (rules : List Rule) : Rule := fun s =>
  rules.findSome? fun rule => rule s

theorem consumes_firstOf {rules : List Rule} (h : ∀ rule ∈ rules, Consumes rule) :
    Consumes (firstOf rules) := by
  intro c s r hr
  obtain ⟨rule, hmem, hrule⟩ := List.exists_of_findSome?_eq_some hr
  exact h rule hmem c s r hrule

/-- A run of characters of a class. -/
def run (kind : Kind) (set : AsciiSet) : Rule
  | [] => none
  | c :: s => if set.has c then some ⟨kind, s.dropWhile set.has⟩ else none

theorem consumes_run (kind : Kind) (set : AsciiSet) : Consumes (run kind set) := by
  intro c s r hr
  simp only [run] at hr
  split at hr
  · cases hr
    exact List.dropWhile_suffix _
  · cases hr

/-- One character of a class. -/
def single (kind : Kind) (set : AsciiSet) : Rule
  | [] => none
  | c :: s => if set.has c then some ⟨kind, s⟩ else none

theorem consumes_single (kind : Kind) (set : AsciiSet) : Consumes (single kind set) := by
  intro c s r hr
  simp only [single] at hr
  split at hr
  · cases hr
    exact List.suffix_rfl
  · cases hr

/-- A run of white space. -/
def whitespace : Rule := run .whitespace .whitespace

/-- One punctuation character of a class. -/
def punctuation (set : AsciiSet) : Rule := single .punctuation set

end Rule

end Highlight
