import Highlight.Comment
import Highlight.Interpolation
import Highlight.Lexer
import Highlight.Number
import Highlight.Operator
import Highlight.StringLiteral
import Highlight.Vocabulary

/-!
# The kinds a rule gives

What a rule recognises is of few kinds, and they can be read off the rule. `Rule.Gives` passes to an
ordered list as `Rule.Consumes` does, so the kinds that come up in a language are those of its rules
and of its strings with embedded code. The latter have the kind of their style, and a style that is
not there in the beginning comes in only with the opening of a string.
-/

namespace Highlight

namespace Rule

/-- Whatever the rule recognises is of one of these kinds. -/
def Gives (rule : Rule) (kinds : List Kind) : Prop :=
  ∀ (s : List Char) (r : Match), rule s = some r → r.kind ∈ kinds

variable {rule : Rule} {rules : List Rule} {kinds kinds' : List Kind}

theorem Gives.mono (h : rule.Gives kinds) (hsub : kinds ⊆ kinds') : rule.Gives kinds' :=
  fun s r hr => hsub (h s r hr)

theorem gives_firstOf (h : ∀ rule ∈ rules, Gives rule kinds) : Gives (firstOf rules) kinds := by
  intro s r hr
  obtain ⟨rule, hmem, hrule⟩ := List.exists_of_findSome?_eq_some hr
  exact h rule hmem s r hrule

theorem gives_run (kind : Kind) (set : AsciiSet) : Gives (run kind set) [kind] := by
  intro s r hr
  unfold run at hr
  repeat' split at hr
  all_goals cases hr
  exact List.mem_singleton_self kind

theorem gives_single (kind : Kind) (set : AsciiSet) : Gives (single kind set) [kind] := by
  intro s r hr
  unfold single at hr
  repeat' split at hr
  all_goals cases hr
  exact List.mem_singleton_self kind

end Rule

theorem CommentSyntax.gives_scan (syn : CommentSyntax) :
    Rule.Gives syn.scan [.commentMultiline, .commentSingle] := by
  have hblock : Rule.Gives syn.scanBlock [.commentMultiline] := by
    intro s r hr
    unfold scanBlock at hr
    repeat' split at hr
    all_goals cases hr
    exact List.mem_singleton_self _
  have hline : Rule.Gives syn.scanLine [.commentSingle] := by
    intro s r hr
    unfold scanLine at hr
    split at hr
    all_goals cases hr
    exact List.mem_singleton_self _
  refine Rule.gives_firstOf fun rule hmem => ?_
  simp only [List.mem_cons, List.not_mem_nil, or_false] at hmem
  rcases hmem with rfl | rfl
  · exact hblock.mono (by simp)
  · exact hline.mono (by simp)

theorem gives_scanHashbang (fresh : Bool) : Rule.Gives (scanHashbang fresh) [.commentHashbang] := by
  intro s r hr
  unfold scanHashbang at hr
  split at hr
  all_goals cases hr
  exact List.mem_singleton_self _

theorem StringSyntax.gives_scan (syn : StringSyntax) :
    Rule.Gives syn.scan [syn.kind, syn.tripleKind, syn.backtickKind] := by
  have hbacktick : Rule.Gives syn.scanBacktick [syn.backtickKind] := by
    intro s r hr
    unfold scanBacktick at hr
    repeat' split at hr
    all_goals cases hr
    exact List.mem_singleton_self _
  have hhashed : Rule.Gives syn.scanHashed [syn.kind] := by
    intro s r hr
    simp only [scanHashed] at hr
    repeat' split at hr
    all_goals cases hr
    exact List.mem_singleton_self _
  have haffixed : Rule.Gives syn.scanAffixed [syn.kind, syn.tripleKind] := by
    intro s r hr
    simp only [scanAffixed, scanQuoted.eq_def] at hr
    repeat' split at hr
    · cases hr
    · cases hr
    · exact List.mem_cons.2 (.inl (List.mem_singleton.1 (hhashed _ _ hr)))
    · cases hr
    · cases hr
      simp
    · cases hr
      simp
  refine Rule.gives_firstOf fun rule hmem => ?_
  simp only [List.mem_cons, List.not_mem_nil, or_false] at hmem
  rcases hmem with rfl | rfl
  · exact hbacktick.mono (by simp)
  · exact haffixed.mono (by simp)

/-- The kinds of number literals. -/
def NumberSyntax.kinds : List Kind :=
  [.number, .numberInteger, .numberFloat, .numberHex, .numberOct, .numberBin]

namespace NumberSyntax

variable {syn : NumberSyntax} {s : List Char}

theorem withSuffix_kind {kind : Kind} (h : kind ∈ kinds) : (syn.withSuffix kind s).kind ∈ kinds := by
  unfold withSuffix
  dsimp only
  repeat' split
  all_goals first | exact h | simp [kinds]

theorem ending_kind {literal : Match} (h : literal.kind ∈ kinds) :
    (syn.ending literal).kind ∈ kinds := by
  refine withSuffix_kind ?_
  unfold withExponent
  split
  · simp [kinds]
  · exact h

theorem scanDecimal_kind : (syn.scanDecimal s).kind ∈ kinds := by
  refine ending_kind ?_
  unfold fraction
  repeat' split
  all_goals simp [kinds]

theorem scanRadix_kind {r : Match} (h : syn.scanRadix s = some r) : r.kind ∈ kinds := by
  unfold scanRadix at h
  repeat' split at h
  · cases h
  · cases h
  · next set kind hradix =>
      cases h
      refine withSuffix_kind ?_
      unfold radix? at hradix
      repeat' split at hradix
      all_goals cases hradix
      all_goals decide

theorem gives_scan (syn : NumberSyntax) : Rule.Gives syn.scan kinds := by
  intro s r hr
  unfold scan at hr
  repeat' split at hr
  · cases hr
  · cases hr
    exact ending_kind (by simp [kinds])
  · cases hr
  · rcases Option.or_eq_some_iff.1 hr with h | ⟨-, h⟩
    · exact scanRadix_kind h
    · cases h
      exact scanDecimal_kind
  · cases hr
    exact scanDecimal_kind
  · cases hr

end NumberSyntax

theorem Vocabulary.kind_mem (vocabulary : Vocabulary) (word : List Char) :
    vocabulary.kind word ∈ .name :: vocabulary.map Prod.fst := by
  rw [kind, lookup?]
  cases hfind : vocabulary.find? fun entry => entry.2.contains (String.ofList word) with
  | none => exact List.mem_cons_self
  | some entry =>
      exact List.mem_cons_of_mem _ (List.mem_map_of_mem (List.mem_of_find?_eq_some hfind))

theorem Vocabulary.gives_scan (vocabulary : Vocabulary) :
    Rule.Gives vocabulary.scan (.name :: vocabulary.map Prod.fst) := by
  intro s r hr
  unfold scan at hr
  split at hr
  · cases hr
  · cases hr
    exact vocabulary.kind_mem _

theorem OperatorSyntax.gives_scan (syn : OperatorSyntax) : Rule.Gives syn.scan [.operator] := by
  intro s r hr
  obtain ⟨n, -, rfl⟩ := Option.map_eq_some_iff.1 hr
  exact List.mem_singleton_self _

end Highlight
