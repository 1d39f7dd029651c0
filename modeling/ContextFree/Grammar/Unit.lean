import ContextFree.Closure
import ContextFree.Grammar.Choice

/-!
# Unit rules

A unit rule has a single nonterminal on its right-hand side. Eliminating unit rules gives a symbol
directly all other rules that it reaches through unit rules.
-/

namespace ContextFree

namespace Grammar

/-- One application of a unit rule to the symbols found last. -/
def unitStep (g : Grammar) : Step Nonterminal where
  next _ frontier := frontier.flatMap fun symbol =>
    (g.rulesFor symbol).filterMap fun rule => rule.rhs.nonterminal?
  domain := g.rules.filterMap fun rule => rule.rhs.nonterminal?
  next_subset _ frontier symbol h := by
    simp only [List.mem_flatMap, List.mem_filterMap, mem_rulesFor] at h ⊢
    obtain ⟨_, _, rule, ⟨hrule, _⟩, hsymbol⟩ := h
    exact ⟨rule, hrule, hsymbol⟩

/-- The symbols that `symbol` derives through unit rules alone, itself first. -/
def unitReachable (g : Grammar) (symbol : Nonterminal) : List Nonterminal :=
  g.unitStep.closure [symbol]

/-- The rules that take the place of `rule`: a unit rule gives way to what its right-hand side
stands for in the end, and to nothing if it leads back to itself. -/
def resolveUnit (g : Grammar) (rule : Rule) : List Rule :=
  if rule.isSelfLoop then []
  else match rule.rhs.nonterminal? with
    | none => [rule]
    | some target => (g.unitReachable target).flatMap fun source =>
        ((g.rulesFor source).filter fun r => !r.isUnit).map fun r => ⟨rule.lhs, r.rhs⟩

theorem wellFormed_of_mem_resolveUnit {g : Grammar} {rule : Rule} (h : rule ∈ g.rules) :
    ∀ r ∈ g.resolveUnit rule, r.rhs.WellFormed := by
  intro r hr
  rw [resolveUnit] at hr
  split at hr
  · simp at hr
  split at hr
  · rw [List.mem_singleton.mp hr]
    exact g.wellFormed rule h
  · obtain ⟨source, -, hr⟩ := List.mem_flatMap.mp hr
    obtain ⟨inlined, hi, rfl⟩ := List.mem_map.mp hr
    exact g.wellFormed inlined (mem_rulesFor.mp (List.mem_filter.mp hi).1).1

/-- The grammar with one rule per alternative and without unit rules. -/
def eliminateUnits (g : Grammar) : Grammar :=
  let split := g.splitAlternatives
  rooted split.start? (split.rules.flatMap split.resolveUnit) fun r hr =>
    (List.mem_flatMap.mp hr).elim fun _ h => wellFormed_of_mem_resolveUnit h.1 r h.2

end Grammar

end ContextFree
