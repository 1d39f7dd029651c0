import Std.Data.HashMap
import ContextFree.Cyk.Chart
import ContextFree.Grammar.NormalForm
import ContextFree.Tree

/-!
# The method of Cocke, Younger and Kasami

A grammar in normal form recognizes an input when the start symbol is in the cell of the whole
input. The derivation trees are found from the chart top down. What a symbol derives on a span is
worked out once and then remembered.
-/

namespace ContextFree

namespace Cyk

/-- A symbol on the `length` tokens from position `start` on. -/
structure Goal where
  symbol : Nonterminal
  start : Nat
  length : Nat
deriving DecidableEq, Hashable

/-- What has been worked out so far: the trees for each goal, and the goals together with the number
of their trees, the latest first. -/
structure Memo where
  trees : Std.HashMap Goal (List Tree)
  finished : List (Goal × Nat)

namespace Memo

/-- Nothing is worked out yet. -/
def empty : Memo :=
  ⟨∅, []⟩

def insert (goal : Goal) (trees : List Tree) (memo : Memo) : Memo :=
  ⟨memo.trees.insert goal trees, (goal, trees.length) :: memo.finished⟩

end Memo

/-- The ways to derive a goal through a pair: the rules for its symbol and, for each of them, the
lengths of the first half. -/
def splits (pairs : List PairRule) (goal : Goal) : List (PairRule × Nat) :=
  (pairs.filter fun pair => decide (pair.lhs = goal.symbol)).flatMap fun pair =>
    (List.range' 1 (goal.length - 1)).map fun length => (pair, length)

/-- The derivation trees for a goal of at most `bound` tokens. -/
def derive (pairs : List PairRule) (chart : Chart) (tokens : List Token) :
    (bound : Nat) → Goal → StateM Memo (List Tree)
  | 0, _ => pure []
  | bound + 1, goal => do
    match (← get).trees[goal]? with
    | some trees => pure trees
    | none =>
      let trees ←
        if !chart.contains goal.symbol goal.start goal.length then pure []
        else if goal.length = 1 then
          pure (tokens[goal.start - 1]?.toList.map fun token => .node goal.symbol [.leaf token])
        else
          (splits pairs goal).flatMapM fun (pair, length) => do
            let lefts ← derive pairs chart tokens bound ⟨pair.left, goal.start, length⟩
            if lefts.isEmpty then pure []
            else
              let rights ← derive pairs chart tokens bound
                ⟨pair.right, goal.start + length, goal.length - length⟩
              pure (lefts.flatMap fun left => rights.map fun right =>
                .node goal.symbol [left, right])
      modify (Memo.insert goal trees)
      pure trees

/-- Whether a grammar in normal form derives the empty input. -/
def acceptsEmpty (g : Grammar) : Bool :=
  g.startRules.any Rule.isEpsilon

/-- Whether a grammar in normal form derives the tokens. -/
def recognizes (g : Grammar) (tokens : List Token) : Bool :=
  g.start?.any fun start =>
    if tokens.isEmpty then acceptsEmpty g
    else (Chart.ofTokens g tokens).contains start 1 tokens.length

/-- The trees for the whole input, and what was worked out on the way to them. -/
def search (g : Grammar) (start : Nonterminal) (tokens : List Token) : List Tree × Memo :=
  if tokens.isEmpty then
    (if acceptsEmpty g then [.node start [.epsilon]] else [], .empty)
  else
    (derive g.pairRules (Chart.ofTokens g tokens) tokens tokens.length
      ⟨start, 1, tokens.length⟩).run .empty

/-- The derivation trees of the tokens in a grammar in normal form. -/
def parse (g : Grammar) (tokens : List Token) : List Tree :=
  g.start?.elim [] fun start => (search g start tokens).1

end Cyk

namespace Grammar

/-- The derivation trees of the tokens in the normal form of a grammar. -/
def cykTrees (a : Arithmetic) (g : Grammar) (tokens : List Token) : List Tree :=
  Cyk.parse (g.toCnf a) tokens

end Grammar

end ContextFree
