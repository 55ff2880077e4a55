import Mathlib.Data.List.TakeWhile
import Highlight.Language.JavaScript
import Highlight.Language.Python
import Highlight.Proofs.LiteralText

/-!
# The grammar of strings with embedded code

A string is runs of literal text and fields. A field is code with balanced brackets and perhaps a
format specification, and both may hold strings again. `Derives` is that grammar, for strings of
either family in each other, and a derivation says in the same breath what a language that scans
such a string is to report of each part of it: the literal runs and the runs of specifications as
text, the delimiters of fields as what they are, and the characters of code as they come.

A part is derived in front of a text, because a run may turn on what follows it and because where a
string opens is for the language to say, which sees the text to its end. Nothing bounds how deep
strings nest or how many brackets are open.
-/

namespace Highlight

/-- Where strings open for a language: the delimiters of the string at the front of a text, and what
is behind its opening quotes. -/
abbrev Openers := List Char → Option (TemplateSyntax × List Char)

/-- What a host reports: a lexeme of a string, or a character of code. -/
inductive Report where
  | lexeme (found : Lexeme)
  | code (c : Char)
  deriving DecidableEq, Repr

namespace Report

/-- The text of a report. -/
def text : Report → List Char
  | .lexeme found => found.text
  | .code c => [c]

/-- The delimiter of a field. -/
def interpol (text : List Char) : Report := .lexeme ⟨.stringInterpol, text⟩

end Report

/-- Whether a character stands for itself in the code of a field: it is no bracket, it starts no
format specification, and it does not end the line of a string that has only one. -/
structure CodeChar (style : TemplateSyntax) (depth : Nat) (c : Char) : Prop where
  bracket : c ∉ ['\x7b', '(', '[', '\x7d', ')', ']']
  colon : c = ':' → style.dollar ∨ 0 < depth
  line : style.singleLine → c ≠ '\n'

/-- The parts that a string with embedded code is made of. -/
inductive Part where
  /-- All of a string, from its prefix on. -/
  | string
  /-- The rest of a string from literal text on, which may be empty. -/
  | text (style : TemplateSyntax)
  /-- The rest of a string from the opening of a field on. -/
  | hole (style : TemplateSyntax)
  /-- The rest of a field inside a number of brackets, up to the brace that closes the field. -/
  | code (style : TemplateSyntax) (depth : Nat)
  /-- The rest of a format specification, up to the brace that closes its field. -/
  | spec (style : TemplateSyntax)

open Report in
/-- A word in front of a text is a part of a string, and this is what a host is to report of it. -/
inductive Derives (openers : Openers) : Part → (word following : List Char) → List Report → Prop
  where
  /-- A string without fields is one lexeme. -/
  | whole {style : TemplateSyntax} {letters run f : List Char} (hq : style.Quoted)
      (hletters : ∀ c ∈ letters, c.isAlpha)
      (hopen : openers (letters ++ (style.quotes ++ (run ++ (style.quotes ++ f)))) =
        some (style, run ++ (style.quotes ++ f)))
      (hrun : style.Literal (style.quotes ++ f) run) :
      Derives openers .string (letters ++ (style.quotes ++ (run ++ style.quotes))) f
        [.lexeme ⟨style.kind, letters ++ (style.quotes ++ (run ++ style.quotes))⟩]
  /-- Otherwise the first lexeme goes up to the first field. -/
  | opened {style : TemplateSyntax} {letters run w f : List Char} {r : List Report}
      (hq : style.Quoted) (hletters : ∀ c ∈ letters, c.isAlpha)
      (hopen : openers (letters ++ (style.quotes ++ (run ++ (w ++ f)))) =
        some (style, run ++ (w ++ f)))
      (hrun : style.Literal (w ++ f) run) (more : Derives openers (.hole style) w f r) :
      Derives openers .string (letters ++ (style.quotes ++ (run ++ w))) f
        (.lexeme ⟨style.kind, letters ++ (style.quotes ++ run)⟩ :: r)
  /-- The last run comes with the closing quotes. -/
  | closed {style : TemplateSyntax} {run f : List Char}
      (hrun : style.Literal (style.quotes ++ f) run) :
      Derives openers (.text style) (run ++ style.quotes) f
        [.lexeme ⟨style.kind, run ++ style.quotes⟩]
  | run {style : TemplateSyntax} {run w f : List Char} {r : List Report} (hne : run ≠ [])
      (hrun : style.Literal (w ++ f) run) (more : Derives openers (.hole style) w f r) :
      Derives openers (.text style) (run ++ w) f (.lexeme ⟨style.kind, run⟩ :: r)
  /-- Between two fields there need not be any text. -/
  | noRun {style : TemplateSyntax} {w f : List Char} {r : List Report}
      (more : Derives openers (.hole style) w f r) : Derives openers (.text style) w f r
  | hole {style : TemplateSyntax} {code w f : List Char} {r r' : List Report}
      (hfits : style.Fits (code ++ (w ++ f)))
      (field : Derives openers (.code style 0) code (w ++ f) r)
      (more : Derives openers (.text style) w f r') :
      Derives openers (.hole style) (style.fieldOpener ++ (code ++ w)) f
        (interpol style.fieldOpener :: (r ++ r'))
  | char {style : TemplateSyntax} {depth : Nat} {c : Char} {w f : List Char} {r : List Report}
      (hc : CodeChar style depth c) (hopen : openers (c :: (w ++ f)) = none)
      (more : Derives openers (.code style depth) w f r) :
      Derives openers (.code style depth) (c :: w) f (.code c :: r)
  | openBracket {style : TemplateSyntax} {depth : Nat} {c : Char} {w f : List Char}
      {r : List Report} (hc : c ∈ ['\x7b', '(', '[']) (hopen : openers (c :: (w ++ f)) = none)
      (more : Derives openers (.code style (depth + 1)) w f r) :
      Derives openers (.code style depth) (c :: w) f (.code c :: r)
  | closeBracket {style : TemplateSyntax} {depth : Nat} {c : Char} {w f : List Char}
      {r : List Report} (hc : c ∈ ['\x7d', ')', ']']) (hopen : openers (c :: (w ++ f)) = none)
      (more : Derives openers (.code style depth) w f r) :
      Derives openers (.code style (depth + 1)) (c :: w) f (.code c :: r)
  | nested {style : TemplateSyntax} {depth : Nat} {w w' f : List Char} {r r' : List Report}
      (string : Derives openers .string w (w' ++ f) r)
      (more : Derives openers (.code style depth) w' f r') :
      Derives openers (.code style depth) (w ++ w') f (r ++ r')
  | endField {style : TemplateSyntax} {f : List Char} :
      Derives openers (.code style 0) ['\x7d'] f [interpol ['\x7d']]
  | colon {style : TemplateSyntax} {w f : List Char} {r : List Report}
      (hd : style.dollar = false) (more : Derives openers (.spec style) w f r) :
      Derives openers (.code style 0) (':' :: w) f (interpol [':'] :: r)
  | endSpec {style : TemplateSyntax} {f : List Char} :
      Derives openers (.spec style) ['\x7d'] f [interpol ['\x7d']]
  /-- A field of a specification may begin with any code, a brace included. -/
  | specField {style : TemplateSyntax} {code w f : List Char} {r r' : List Report}
      (field : Derives openers (.code style 0) code (w ++ f) r)
      (more : Derives openers (.spec style) w f r') :
      Derives openers (.spec style) ('\x7b' :: (code ++ w)) f
        (interpol ['\x7b'] :: (r ++ r'))
  /-- A run of a specification goes up to a brace. -/
  | specRun {style : TemplateSyntax} {run w f : List Char} {c : Char} {r : List Report}
      (hne : run ≠ []) (hrun : ∀ c ∈ run, style.SpecText c) (hc : c = '\x7b' ∨ c = '\x7d')
      (more : Derives openers (.spec style) (c :: w) f r) :
      Derives openers (.spec style) (run ++ c :: w) f (.lexeme ⟨style.kind, run⟩ :: r)

theorem JavaScript.quoted_template : JavaScript.template.Quoted := .inr (.inr rfl)

/-- The affix of a literal is of letters of an affix, and something that opens a literal is behind
it. -/
theorem StringSyntax.affix?_eq_some {syn : StringSyntax} {s affix : List Char}
    (h : syn.affix? s = some affix) :
    ∃ c t, s = affix ++ c :: t ∧ (∀ d ∈ affix, d ∈ syn.affixes) ∧ syn.opens affix c = true := by
  simp only [affix?] at h
  split at h
  · cases h
  · next c t hdrop =>
      split at h
      · next hopens =>
          cases h
          refine ⟨c, t, ?_, ?_, hopens⟩
          · have htake : s.take (syn.letters s).length = syn.letters s :=
              List.prefix_iff_eq_take.1
                ((List.takeWhile_prefix _).trans (List.take_prefix ..)) |>.symm
            have happ := List.take_append_drop (syn.letters s).length s
            rw [htake, hdrop] at happ
            exact happ.symm
          · intro d hd
            exact List.contains_iff_mem.1 (List.mem_takeWhile_imp hd)
      · cases h

/-- What opens an f-string is letters and the quotes of its style. -/
theorem Python.fString?_eq_some {s body : List Char} {style : TemplateSyntax}
    (h : Python.fString? s = some (style, body)) :
    style.Quoted ∧ ∃ letters, (∀ c ∈ letters, c.isAlpha) ∧ s = letters ++ (style.quotes ++ body) := by
  simp only [fString?] at h
  split at h
  · cases h
  · next affix haffix =>
      obtain ⟨quote, t, rfl, hletters, hopens⟩ := StringSyntax.affix?_eq_some haffix
      have halpha : ∀ c ∈ affix, c.isAlpha := by
        have hall : strings.affixes.all Char.isAlpha = true := rfl
        exact fun c hc => List.all_eq_true.1 hall c (hletters c hc)
      have hquote : quote = '\'' ∨ quote = '\x22' ∨ quote = '\x60' := by
        simp [StringSyntax.opens, strings] at hopens
        exact hopens.symm.imp_right .inl
      rw [List.drop_left] at h
      split at h
      · dsimp only at h
        split at h
        · next behind hb =>
            cases h
            refine ⟨hquote, affix, halpha, ?_⟩
            rw [eq_append_of_isPrefixOf? hb]
            rfl
        · cases h
          exact ⟨hquote, affix, halpha, rfl⟩
      · cases h

end Highlight
