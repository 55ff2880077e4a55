import Highlight.Language
import Highlight.Proofs.GoTokens
import Highlight.Proofs.PythonTokens
import Highlight.Proofs.RustTokens

/-!
# Tokens printed with blanks between them are read back

For each language there is an account of its tokens, with the kind of each, and of how its lexer
takes one in front of a gap. Together they make the printing of tokens and the reading of a text
inverse to each other.
-/

namespace Highlight

/-- The tokens of the languages whose tokens are read back. -/
inductive Printable : Language → Lexeme → Prop where
  | python {t : Lexeme} (h : Python.Token t) : Printable .python t
  | rust {t : Lexeme} (h : Rust.Token t) : Printable .rust t
  | go {t : Lexeme} (h : Go.Token t) : Printable .go t

/-- What a list of tokens is printed as is read as these tokens, with a blank between neighbours. -/
theorem Language.lex_printed {language : Language} {tokens : List Lexeme}
    (h : ∀ t ∈ tokens, Printable language t) :
    language.lex (printed tokens) = tokens.intersperse blank := by
  cases language with
  | python =>
      refine Python.lex_tokens fun t ht => ?_
      cases h t ht
      assumption
  | rust =>
      refine Rust.lex_tokens fun t ht => ?_
      cases h t ht
      assumption
  | go =>
      refine Go.lex_tokens fun t ht => ?_
      cases h t ht
      assumption
  | javaScript | json | html | markdown =>
      have hnil : tokens = [] := List.eq_nil_iff_forall_not_mem.2 fun t ht => nomatch h t ht
      rw [hnil]
      exact Lexer.run_nil _ _

/-- A single quote for a lifetime and for two characters, letters for affixes, for a raw identifier
and for a name, and a point in a number and in an operator. -/
theorem Language.lex_printed_rust :
    Language.rust.lex "'a 'a' b'\\'' br#\"\"\"# r#fn b 0x1_fu8 1.5e-3f64 ..=".toList =
      [⟨.nameLabel, "'a".toList⟩, ⟨.stringChar, "'a'".toList⟩, ⟨.stringChar, "b'\\''".toList⟩,
        ⟨.string, "br#\"\"\"#".toList⟩, ⟨.name, "r#fn".toList⟩, ⟨.name, "b".toList⟩,
        ⟨.numberHex, "0x1_fu8".toList⟩, ⟨.numberFloat, "1.5e-3f64".toList⟩,
        ⟨.operator, "..=".toList⟩].intersperse blank := by
  have hlifetime : Printable .rust ⟨.nameLabel, "'a".toList⟩ :=
    .rust (@Rust.Token.lifetime ['a'] (.run (by decide) (by decide)))
  have hcharacter : Printable .rust ⟨.stringChar, "'a'".toList⟩ :=
    .rust (@Rust.Token.character ['a'] (.plain (by decide) (by decide) (by decide)))
  have hbyte : Printable .rust ⟨.stringChar, "b'\\''".toList⟩ :=
    .rust (@Rust.Token.byte ['\x5c', '\x27'] (.escape .nil))
  have hraw : Printable .rust ⟨.string, "br#\"\"\"#".toList⟩ :=
    .rust (.string (@StringSyntax.Literal.hashed Rust.strings ['b', 'r'] ['\x22'] 0 rfl
      ⟨by decide, by decide⟩ rfl (by decide)))
  have hidentifier : Printable .rust ⟨.name, "r#fn".toList⟩ :=
    .rust (@Rust.Token.rawIdentifier ['f', 'n'] (.run (by decide) (by decide)))
  have hname : Printable .rust ⟨.name, "b".toList⟩ :=
    .rust (@Rust.Token.word ['b'] (.run (by decide) (by decide)))
  have hhex : Printable .rust ⟨.numberHex, "0x1_fu8".toList⟩ :=
    .rust (.number (@NumberSyntax.Literal.radix Rust.numbers .numberHex .numberHex .hexDigits 'x'
      ['1', '_', 'f'] ['u', '8'] rfl (by decide) ⟨'1', by decide, by decide⟩
      (@NumberSyntax.Suffix.integer Rust.numbers _ "u8" (by decide) (by decide))))
  have hfloat : Printable .rust ⟨.numberFloat, "1.5e-3f64".toList⟩ :=
    .rust (.number (@NumberSyntax.Literal.decimal Rust.numbers .numberFloat ['1'] ['.', '5']
      ['e', '-', '3'] ['f', '6', '4'] (.run (by decide) (by decide))
      (.digits (.run (by decide) (by decide)))
      (@NumberSyntax.Exponent.digits _ 'e' ['-'] ['3'] (.inl rfl) (by decide)
        (.run (by decide) (by decide)))
      (@NumberSyntax.Suffix.float Rust.numbers _ "f64" (.inr rfl) (by decide))))
  have hoperator : Printable .rust ⟨.operator, "..=".toList⟩ := .rust (.operator (by decide))
  exact @Language.lex_printed .rust [_, _, _, _, _, _, _, _, _] (by
    simp only [List.forall_mem_cons, List.not_mem_nil, false_imp_iff, implies_true, and_true]
    exact ⟨hlifetime, hcharacter, hbyte, hraw, hidentifier, hname, hhex, hfloat, hoperator⟩)

end Highlight
