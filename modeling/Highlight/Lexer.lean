import Highlight.Rule

/-!
# Lexers

A lexer reads a text from front to back. At each point it has a state, takes a lexeme off the front
of what is left, and goes on with the next state behind it. That the rest of a step is an ending of
the text behind the first character belongs to the lexer, and with it a run is total: it ends with
the text, and no lexeme is empty.

There is no failure. What no rule of a language recognises is a lexeme of its own kind.
-/

namespace Highlight

/-- A classified piece of text. -/
structure Lexeme where
  kind : Kind
  text : List Char
  deriving DecidableEq, Repr

namespace Lexeme

/-- Number of bytes of a lexeme. -/
def size (lexeme : Lexeme) : Nat := byteSize lexeme.text

/-- Lexemes of given kinds and sizes in bytes, cut off the front of a text one by one. What takes no
character is left out. -/
def cut : List (Kind × Nat) → List Char → List Lexeme
  | [], _ => []
  | (kind, size) :: more, s =>
    match takeBytes size s with
    | [] => cut more s
    | text => ⟨kind, text⟩ :: cut more (s.drop text.length)

end Lexeme

/-- One step of a lexer. -/
structure Step (σ : Type) where
  kind : Kind
  /-- What is left behind the lexeme. -/
  rest : List Char
  /-- The state behind the lexeme. -/
  state : σ

/-- A way to take texts apart, with a state of type `σ` between lexemes. -/
structure Lexer (σ : Type) where
  /-- The state in front of a text. -/
  start : σ
  /-- The lexeme at the front of a text, given by its first character and the others. -/
  step : σ → Char → List Char → Step σ
  /-- A lexeme includes the first character, and what is behind it is left alone. -/
  rest_suffix : ∀ state c s, (step state c s).rest <:+ s

namespace Lexer

variable {σ : Type}

/-- The lexemes of a text from a state on. -/
def run (lexer : Lexer σ) (state : σ) (text : List Char) : List Lexeme :=
  match text with
  | [] => []
  | c :: s =>
    let next := lexer.step state c s
    ⟨next.kind, before (c :: s) next.rest⟩ :: lexer.run next.state next.rest
termination_by text.length
decreasing_by
  exact Nat.lt_succ_of_le (lexer.rest_suffix state c s).length_le

/-- The lexemes of a text. -/
def lex (lexer : Lexer σ) (text : List Char) : List Lexeme :=
  lexer.run lexer.start text

@[simp] theorem run_nil (lexer : Lexer σ) (state : σ) : lexer.run state [] = [] := by
  rw [run]

theorem run_cons (lexer : Lexer σ) (state : σ) (c : Char) (s : List Char) :
    lexer.run state (c :: s) =
      ⟨(lexer.step state c s).kind, before (c :: s) (lexer.step state c s).rest⟩ ::
        lexer.run (lexer.step state c s).state (lexer.step state c s).rest := by
  rw [run]

/-- That a run over a text comes to a state with a rest in front of it. -/
inductive Visits (lexer : Lexer σ) (text : List Char) : σ → List Char → Prop where
  | start : lexer.Visits text lexer.start text
  | step {state : σ} {c : Char} {s : List Char} (h : lexer.Visits text state (c :: s)) :
      lexer.Visits text (lexer.step state c s).state (lexer.step state c s).rest

/-- The construct that the first of the rules recognises; one character of no construct where none
of them does. -/
def scanOr (fallback : Kind) (rule : Rule) (c : Char) (s : List Char) : Match :=
  (rule (c :: s)).getD ⟨fallback, s⟩

theorem scanOr_suffix {fallback : Kind} {rule : Rule} (h : rule.Consumes) (c : Char)
    (s : List Char) : (scanOr fallback rule c s).rest <:+ s := by
  unfold scanOr
  cases hr : rule (c :: s) with
  | none => exact List.suffix_rfl
  | some r => exact h c s r hr

/-- The lexer of a language in which nothing depends on what came before: at every point the first
rule decides, and a character that none of them recognises is an error. -/
def ofRules (rules : List Rule) (h : ∀ rule ∈ rules, Rule.Consumes rule) : Lexer Unit where
  start := ()
  step _ c s :=
    let found := scanOr .error (Rule.firstOf rules) c s
    ⟨found.kind, found.rest, ()⟩
  rest_suffix _ c s := scanOr_suffix (Rule.consumes_firstOf h) c s

end Lexer

end Highlight
