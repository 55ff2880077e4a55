import Highlight.Formatter
import Highlight.Language

/-!
# Highlighting by name

Texts are highlighted one at a time or in batches, and their languages are given by name. In a
batch every name is looked up before any text is read, so one name that is unknown fails the batch.
-/

namespace Highlight

/-- How a batch is scheduled. The results do not depend on it. -/
structure Batching where
  /-- Number of workers, where it was chosen. -/
  chosenWorkers : Option Nat := none
  /-- Smaller batches have no workers. -/
  threshold : Nat := 8
  deriving DecidableEq, Repr

namespace Batching

/-- The greatest size of a batch there is. -/
def maxSize : Nat := UInt64.size - 1

/-- The schedule that never has workers. -/
def sequential : Batching where
  threshold := maxSize

/-- The greatest number of workers that is chosen without being asked for. -/
def defaultWorkers : Nat := 4

/-- Number of workers of a batch that has any. -/
def workers (config : Batching) : Nat :=
  config.chosenWorkers.getD defaultWorkers

end Batching

/-- Reads texts in languages given by name. -/
structure Highlighter where
  batch : Batching := {}
  deriving DecidableEq, Repr

namespace Highlighter

/-- The tokens of a range of a text. -/
def tokenizeRange (language : String) (text : List Char) (range : ByteRange)
    (config : TokenConfig) : Except LanguageError (List Token) := do
  let language ← Language.get language
  return language.tokenizeRange text range config

/-- The tokens of a text. -/
def tokenize (language : String) (text : List Char) : Except LanguageError (List Token) :=
  tokenizeRange language text (.whole text) {}

/-- The lexemes of a range of a text. -/
def lexRange (language : String) (text : List Char) (range : ByteRange) :
    Except LanguageError (List Lexeme) := do
  let language ← Language.get language
  return language.lexRange text range

/-- A range of a text, written by a formatter. -/
def highlightRange (formatter : Formatter) (language : String) (text : List Char)
    (range : ByteRange) : Except LanguageError (List Char) := do
  let lexemes ← lexRange language text range
  return formatter.formatLexemes lexemes

/-- A text, written by a formatter. -/
def highlight (formatter : Formatter) (language : String) (text : List Char) :
    Except LanguageError (List Char) :=
  highlightRange formatter language text (.whole text)

/-- The texts of a batch with their languages, which the first unknown name fails. -/
def resolve (items : List (List Char × String)) :
    Except LanguageError (List (List Char × Language)) :=
  items.mapM fun (text, name) => do
    let language ← Language.get name
    return (text, language)

/-- The tokens of each text of a batch, in order. -/
def tokenizeAll (_ : Highlighter) (items : List (List Char × String)) :
    Except LanguageError (List (List Token)) := do
  let jobs ← resolve items
  return jobs.map fun (text, language) => language.tokenize text

/-- Each text of a batch, written by a formatter, in order. -/
def highlightAll (_ : Highlighter) (formatter : Formatter) (items : List (List Char × String)) :
    Except LanguageError (List (List Char)) := do
  let jobs ← resolve items
  return jobs.map fun (text, language) =>
    formatter.formatLexemes (language.lexRange text (.whole text))

/-- Whether a language of that name is known. -/
def supports (name : String) : Bool := (Language.ofName? name).isSome

end Highlighter

end Highlight
