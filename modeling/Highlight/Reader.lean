import Highlight.Buffer
import Highlight.Kind

/-!
# Reading in place

A reader is to a buffer what a rule is to a text: at an offset it recognises a construct or
declines. What it has recognised is told by the kind and by the offset behind it.

A scanner goes through a buffer from an offset on, with a state between lexemes. It is told where it
starts, since something may be allowed at the start of a range only, and it hands out kinds and
sizes: the text of a lexeme is cut out by who asks for it.
-/

namespace Highlight

/-- A construct recognised at an offset of a buffer. -/
structure Span where
  kind : Kind
  /-- The offset behind the construct. -/
  stop : Nat
  deriving DecidableEq, Repr

/-- A way to recognise constructs in place. -/
abbrev Reader := Buffer → Nat → Option Span

namespace Reader

/-- The first reader of a list that does not decline. -/
def firstOf (readers : List Reader) : Reader := fun buffer start =>
  readers.findSome? fun reader => reader buffer start

/-- A run of characters of a class. -/
def run (kind : Kind) (set : AsciiSet) : Reader := fun buffer start =>
  if buffer.readsAny start set then some ⟨kind, buffer.skipWhile set start⟩ else none

/-- One character of a class. -/
def single (kind : Kind) (set : AsciiSet) : Reader := fun buffer start =>
  if buffer.readsAny start set then some ⟨kind, start + 1⟩ else none

/-- A run of white space. -/
def whitespace : Reader := run .whitespace .whitespace

/-- One punctuation character of a class. -/
def punctuation (set : AsciiSet) : Reader := single .punctuation set

/-- What a reader recognises; one character of no construct where it declines. -/
def orCharacter (fallback : Kind) (reader : Reader) (buffer : Buffer) (start : Nat) : Span :=
  (reader buffer start).getD ⟨fallback, buffer.next start⟩

end Reader

/-- What a scanner has found at an offset, and its state behind that. -/
structure Found (σ : Type) where
  kind : Kind
  stop : Nat
  state : σ

/-- A way to take buffers apart, with a state of type `σ` between lexemes. -/
structure Scanner (σ : Type) where
  /-- The state at the start of a range. -/
  start : Nat → σ
  /-- The lexeme at an offset, and none at the end of the buffer. -/
  next : Buffer → Nat → σ → Option (Found σ)

namespace Scanner

variable {σ : Type}

/-- Kinds and sizes of the lexemes from an offset on. A lexeme takes something of the buffer; a
scanner that has none to give is done. -/
def run (scanner : Scanner σ) (buffer : Buffer) (offset : Nat) (state : σ) : List (Kind × Nat) :=
  match scanner.next buffer offset state with
  | none => []
  | some found =>
    if offset < found.stop ∧ found.stop ≤ buffer.length then
      (found.kind, found.stop - offset) :: scanner.run buffer found.stop found.state
    else []
termination_by buffer.length - offset
decreasing_by omega

/-- Kinds and sizes of the lexemes of a range that ends with the buffer. -/
def lex (scanner : Scanner σ) (buffer : Buffer) (start : Nat) : List (Kind × Nat) :=
  scanner.run buffer start (scanner.start start)

/-- The scanner of a language in which nothing depends on what came before. -/
def ofReaders (readers : List Reader) : Scanner Unit where
  start _ := ()
  next buffer offset _ :=
    if offset < buffer.length then
      let span := Reader.orCharacter .error (Reader.firstOf readers) buffer offset
      some ⟨span.kind, span.stop, ()⟩
    else none

end Scanner

end Highlight
