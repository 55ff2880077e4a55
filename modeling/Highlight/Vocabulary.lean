import Highlight.Reader
import Highlight.Rule
import Highlight.Word

/-!
# Vocabularies

A language gives some words a kind of their own; every other word is a name.
-/

namespace Highlight

/-- The words of a language that are more than names, by kind. -/
abbrev Vocabulary := List (Kind × List String)

namespace Vocabulary

/-- The kind of a word, if the vocabulary has it. -/
def lookup? (vocabulary : Vocabulary) (word : List Char) : Option Kind :=
  (vocabulary.find? fun entry => entry.2.contains (String.ofList word)).map (·.1)

/-- The kind of a word. -/
def kind (vocabulary : Vocabulary) (word : List Char) : Kind :=
  (vocabulary.lookup? word).getD .name

/-- An identifier, with the kind of the word it is. -/
def scan (vocabulary : Vocabulary) : Rule := fun s =>
  match behindIdentifier? s with
  | none => none
  | some rest => some ⟨vocabulary.kind (identifierOf s), rest⟩

/-- An identifier in place. -/
def read (vocabulary : Vocabulary) : Reader := fun buffer start =>
  (buffer.identifier? start).map fun stop => ⟨vocabulary.kind (buffer.slice start stop), stop⟩

theorem consumes_scan (vocabulary : Vocabulary) : Rule.Consumes vocabulary.scan := by
  intro c s r hr
  simp only [scan] at hr
  split at hr
  · cases hr
  · next rest hrest =>
      cases hr
      exact behindIdentifier?_suffix_tail hrest

end Vocabulary

end Highlight
