import ContextFree.Closure
import ContextFree.Grammar.Basic

/-!
# Useful rules

A rule is productive when all nonterminals of its right-hand side have productive rules, and
reachable when its left-hand side can be derived from the start symbol. The useful part of a grammar
is the reachable part of its productive part.
-/

namespace ContextFree

namespace Grammar

/-- A rule is productive once its nonterminals have productive rules. -/
def productiveStep (g : Grammar) : Step Rule where
  next known _ :=
    let heads := known.map Rule.lhs
    g.rules.filter fun rule => rule.rhs.nonterminals.all heads.contains
  domain := g.rules
  next_subset _ _ _ h := (List.mem_filter.mp h).1

/-- The productive rules, in order of discovery. -/
def productiveRules (g : Grammar) : List Rule :=
  g.productiveStep.closure []

/-- The grammar of the productive rules. -/
def productivePart (g : Grammar) : Grammar :=
  let productive := g.productiveRules
  rooted g.start? (g.rules.filter productive.contains) fun rule h =>
    g.wellFormed rule (List.mem_filter.mp h).1

/-- What is mentioned by the rules of the symbols found last is reachable. -/
def reachableStep (g : Grammar) : Step Nonterminal where
  next _ frontier := frontier.flatMap fun symbol =>
    (g.rulesFor symbol).flatMap fun rule => rule.rhs.nonterminals
  domain := g.rules.flatMap fun rule => rule.rhs.nonterminals
  next_subset _ frontier symbol h := by
    simp only [List.mem_flatMap, mem_rulesFor] at h ⊢
    obtain ⟨_, _, rule, ⟨hrule, _⟩, hsymbol⟩ := h
    exact ⟨rule, hrule, hsymbol⟩

/-- The nonterminals that are reachable from `start`, in order of discovery. -/
def reachableFrom (g : Grammar) (start : Nonterminal) : List Nonterminal :=
  g.reachableStep.closure [start]

/-- The grammar of the rules for reachable nonterminals. -/
def reachablePart (g : Grammar) : Grammar :=
  match g.start? with
  | none => empty
  | some start =>
    let reachable := g.reachableFrom start
    ofRules (g.rules.filter fun rule => reachable.contains rule.lhs) fun rule h =>
      g.wellFormed rule (List.mem_filter.mp h).1

/-- The grammar without rules that take part in no derivation. -/
def usefulPart (g : Grammar) : Grammar :=
  g.productivePart.reachablePart

end Grammar

end ContextFree
