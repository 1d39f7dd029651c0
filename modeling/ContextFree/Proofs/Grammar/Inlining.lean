import ContextFree.Grammar.Basic
import ContextFree.Proofs.Expr.Substitution

/-!
# Inlining

A symbol is inlined when the right-hand side of a rule for it takes its place in all rules. If the
rules for some symbols only abbreviate other expressions (`Rule.Abbreviates`), no step changes what
the rules come to once everything is spelled out (`Rule.Abbreviates.map_subst_inlines`). Each step
gets rid of a symbol, so every run ends (`Rule.Abbreviates.acc`), and in whatever order the symbols
are inlined, it ends with the rules spelled out (`Rule.Abbreviates.eq_of_runs`).
-/

namespace ContextFree

namespace Rule

variable {symbols : List Nonterminal} {symbol : Nonterminal} {σ : Substitution}
  {rank : Nonterminal → Nat} {rules next : List Rule} {rule definition : Rule}

/-- The rule with all nonterminals of its right-hand side substituted for. -/
def subst (σ : Substitution) (rule : Rule) : Rule :=
  ⟨rule.lhs, rule.rhs.subst σ⟩

/-- The rule with the right-hand side of `definition` in the place of the symbol it is for. -/
def inline (definition rule : Rule) : Rule :=
  ⟨rule.lhs, rule.rhs.replace (.nonterminal definition.lhs) definition.rhs⟩

/-- The nonterminals on the right-hand sides of the rules, with repetitions. -/
def mentioned (rules : List Rule) : List Nonterminal :=
  rules.flatMap fun rule => rule.rhs.nonterminals

/-- One of the symbols that are mentioned is inlined in all rules. -/
inductive Inlines (symbols : List Nonterminal) (rules : List Rule) : List Rule → Prop where
  | step {definition : Rule} (mem : definition ∈ rules) (lhs_mem : definition.lhs ∈ symbols)
      (mentioned : definition.lhs ∈ mentioned rules) :
      Inlines symbols rules (rules.map (inline definition))

/-- The rules for the symbols are abbreviations: `σ` spells the symbols out in accordance with these
rules, and none of them mentions a symbol whose rank is not lower. -/
structure Abbreviates (symbols : List Nonterminal) (σ : Substitution) (rank : Nonterminal → Nat)
    (rules : List Rule) : Prop where
  wellFormed : ∀ rule ∈ rules, rule.rhs.WellFormed
  defined : ∀ symbol ∈ symbols, ∃ rule ∈ rules, rule.lhs = symbol
  spells : ∀ rule ∈ rules, rule.lhs ∈ symbols → rule.rhs.subst σ = σ rule.lhs
  fixes : ∀ symbol ∉ symbols, σ symbol = .nonterminal symbol
  rank_lt : ∀ rule ∈ rules, rule.lhs ∈ symbols →
    ∀ symbol ∈ rule.rhs.nonterminals, symbol ∈ symbols → rank symbol < rank rule.lhs

theorem mem_mentioned :
    symbol ∈ mentioned rules ↔ ∃ rule ∈ rules, symbol ∈ rule.rhs.nonterminals :=
  List.mem_flatMap

@[simp] theorem lhs_subst : (rule.subst σ).lhs = rule.lhs := rfl

theorem wellFormed_inline (hdef : definition.rhs.WellFormed) (h : rule.rhs.WellFormed) :
    (definition.inline rule).rhs.WellFormed :=
  Expr.wellFormed_replace h hdef

theorem mem_nonterminals_inline (hdef : definition.rhs.WellFormed) :
    symbol ∈ (definition.inline rule).rhs.nonterminals ↔
      (symbol ∈ rule.rhs.nonterminals ∧ symbol ≠ definition.lhs) ∨
        (definition.lhs ∈ rule.rhs.nonterminals ∧ symbol ∈ definition.rhs.nonterminals) := by
  rw [inline, Expr.replace_eq_subst hdef, Expr.nonterminals_subst, List.mem_flatMap]
  constructor
  · rintro ⟨other, ho, hs⟩
    by_cases heq : other = definition.lhs
    · subst heq
      rw [Substitution.update_self] at hs
      exact .inr ⟨ho, hs⟩
    · rw [Substitution.update_of_ne hdef heq] at hs
      obtain rfl := List.mem_singleton.mp hs
      exact .inl ⟨ho, heq⟩
  · rintro (⟨hs, hne⟩ | ⟨hlhs, hs⟩)
    · refine ⟨symbol, hs, ?_⟩
      rw [Substitution.update_of_ne hdef hne]
      exact List.mem_singleton_self symbol
    · refine ⟨definition.lhs, hlhs, ?_⟩
      rwa [Substitution.update_self]

namespace Abbreviates

section

variable (h : Abbreviates symbols σ rank rules)

include h

/-- Once spelled out, a rule is the same before and after a symbol is inlined. -/
theorem subst_inline (hdef : definition ∈ rules) (hlhs : definition.lhs ∈ symbols)
    (hr : rule ∈ rules) : (definition.inline rule).subst σ = rule.subst σ := by
  have hwf := h.wellFormed definition hdef
  rw [subst, inline, Expr.replace_eq_subst hwf, (h.wellFormed rule hr).subst_subst]
  · rfl
  intro symbol _
  by_cases heq : symbol = definition.lhs
  · rw [heq, Substitution.update_self, h.spells definition hdef hlhs]
  · rw [Substitution.update_of_ne hwf heq]
    rfl

theorem map_subst_inlines (hstep : Inlines symbols rules next) :
    next.map (subst σ) = rules.map (subst σ) := by
  obtain ⟨hdef, hlhs, -⟩ := hstep
  rw [List.map_map]
  exact List.map_congr_left fun rule hr => h.subst_inline hdef hlhs hr

theorem inlines (hstep : Inlines symbols rules next) : Abbreviates symbols σ rank next := by
  obtain @⟨definition, hdef, hlhs, -⟩ := hstep
  have hwf := h.wellFormed definition hdef
  refine ⟨?wellFormed, fun symbol hs => ?defined, ?spells, h.fixes, ?rank_lt⟩
  case wellFormed =>
    rw [List.forall_mem_map]
    exact fun rule hr => wellFormed_inline hwf (h.wellFormed rule hr)
  case defined =>
    obtain ⟨rule, hr, hrule⟩ := h.defined symbol hs
    exact ⟨_, List.mem_map_of_mem hr, hrule⟩
  case spells =>
    rw [List.forall_mem_map]
    intro rule hr hrule
    exact (congrArg Rule.rhs (h.subst_inline hdef hlhs hr)).trans (h.spells rule hr hrule)
  case rank_lt =>
    rw [List.forall_mem_map]
    intro rule hr hrule symbol hs hsymbol
    rcases (mem_nonterminals_inline hwf).mp hs with ⟨hs, -⟩ | ⟨hmentioned, hs⟩
    · exact h.rank_lt rule hr hrule symbol hs hsymbol
    · exact (h.rank_lt _ hdef hlhs symbol hs hsymbol).trans
        (h.rank_lt rule hr hrule _ hmentioned hlhs)

/-- The order of the rules does not matter. -/
theorem of_mem_iff (hmem : ∀ rule, rule ∈ next ↔ rule ∈ rules) :
    Abbreviates symbols σ rank next where
  wellFormed rule hr := h.wellFormed rule ((hmem rule).mp hr)
  defined symbol hs := by simpa only [hmem] using h.defined symbol hs
  spells rule hr := h.spells rule ((hmem rule).mp hr)
  fixes := h.fixes
  rank_lt rule hr := h.rank_lt rule ((hmem rule).mp hr)

/-! ## Every run ends -/

/-- The inlined symbol is gone, and no other one is mentioned that was not before. -/
theorem card_mentioned_lt (hstep : Inlines symbols rules next) :
    (symbols.toFinset.filter (· ∈ mentioned next)).card <
      (symbols.toFinset.filter (· ∈ mentioned rules)).card := by
  obtain @⟨definition, hdef, hlhs, hmentioned⟩ := hstep
  have hwf := h.wellFormed definition hdef
  have hsub {symbol : Nonterminal} (hs : symbol ∈ mentioned (rules.map (inline definition))) :
      symbol ∈ mentioned rules ∧ symbol ≠ definition.lhs := by
    obtain ⟨_, hinlined, hs⟩ := mem_mentioned.mp hs
    obtain ⟨rule, hr, rfl⟩ := List.mem_map.mp hinlined
    rcases (mem_nonterminals_inline hwf).mp hs with ⟨hs, hne⟩ | ⟨-, hs⟩
    · exact ⟨mem_mentioned.mpr ⟨rule, hr, hs⟩, hne⟩
    · refine ⟨mem_mentioned.mpr ⟨definition, hdef, hs⟩, ?_⟩
      rintro rfl
      exact lt_irrefl _ (h.rank_lt definition hdef hlhs _ hs hlhs)
  apply Finset.card_lt_card
  rw [Finset.ssubset_iff_of_subset (Finset.monotone_filter_right _ fun _ _ hs => (hsub hs).1)]
  refine ⟨definition.lhs, by simp [hlhs, hmentioned], ?_⟩
  rw [Finset.mem_filter]
  exact fun hs => (hsub hs.2).2 rfl

theorem acc : Acc (flip (Inlines symbols)) rules := by
  induction hcard : (symbols.toFinset.filter (· ∈ mentioned rules)).card
    using Nat.strong_induction_on generalizing rules with
  | _ n ih =>
    subst hcard
    exact .intro rules fun next hstep => ih _ (h.card_mentioned_lt hstep) (h.inlines hstep) rfl

/-- As long as one of the symbols is mentioned it can be inlined. -/
theorem exists_inlines (hs : symbol ∈ symbols) (hmentioned : symbol ∈ mentioned rules) :
    ∃ next, Inlines symbols rules next := by
  obtain ⟨definition, hdef, rfl⟩ := h.defined symbol hs
  exact ⟨_, .step hdef hs hmentioned⟩

/-! ## What a run ends with -/

theorem runs (hruns : Relation.ReflTransGen (Inlines symbols) rules next) :
    Abbreviates symbols σ rank next ∧ next.map (subst σ) = rules.map (subst σ) := by
  induction hruns with
  | refl => exact ⟨h, rfl⟩
  | tail _ hstep ih => exact ⟨ih.1.inlines hstep, (ih.1.map_subst_inlines hstep).trans ih.2⟩

/-- A run that cannot go on has spelled out all rules. -/
theorem eq_of_runs (hruns : Relation.ReflTransGen (Inlines symbols) rules next)
    (hdone : ∀ symbol ∈ symbols, symbol ∉ mentioned next) : next = rules.map (subst σ) := by
  obtain ⟨hnext, heq⟩ := h.runs hruns
  have hself : ∀ rule ∈ next, rule.subst σ = rule := by
    intro rule hr
    have hrhs : rule.rhs.subst σ = rule.rhs :=
      (hnext.wellFormed rule hr).subst_eq_self fun symbol hs =>
        hnext.fixes symbol fun hsymbol => hdone symbol hsymbol (mem_mentioned.mpr ⟨rule, hr, hs⟩)
    rw [subst, hrhs]
  rw [← heq, List.map_congr_left hself, List.map_id']

end

end Abbreviates

end Rule

end ContextFree
