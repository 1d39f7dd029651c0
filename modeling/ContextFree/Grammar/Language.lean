import ContextFree.Grammar.Basic
import ContextFree.Tree

/-!
# The language of a grammar

An expression derives a list of tokens when the rules of a grammar lead from the one to the other.
A tree belongs to a grammar without choices when every node reads as a rule: its label is the
left-hand side, and the roots of its children are the items of the right-hand side. The tokens of
such a tree are derived by its root (`Tree.IsDerivation.derives`).
-/

namespace ContextFree

namespace Grammar

/-- The token lists that an expression derives: a terminal derives its token, the empty string
nothing, a nonterminal what one of its rules does, a sequence what its items do side by side, and a
choice what one of its alternatives does. -/
inductive Derives (g : Grammar) : Expr → List Token → Prop where
  | terminal (token : Token) : Derives g (.terminal token) [token]
  | nonterminal {rule : Rule} {w : List Token} (mem : rule ∈ g.rules) (rhs : Derives g rule.rhs w) :
      Derives g (.nonterminal rule.lhs) w
  | empty : Derives g .empty []
  | nil : Derives g (.seq []) []
  | cons {e : Expr} {es : List Expr} {u v : List Token} (head : Derives g e u)
      (tail : Derives g (.seq es) v) : Derives g (.seq (e :: es)) (u ++ v)
  | alt {e : Expr} {es : List Expr} {w : List Token} (mem : e ∈ es) (alternative : Derives g e w) :
      Derives g (.alt es) w

/-- The token lists that the start symbol derives. A grammar without rules generates none. -/
def Generates (g : Grammar) (w : List Token) : Prop :=
  ∃ start, g.start? = some start ∧ g.Derives (.nonterminal start) w

variable {g : Grammar}

@[simp] theorem derives_terminal_iff {token : Token} {w : List Token} :
    g.Derives (.terminal token) w ↔ w = [token] :=
  ⟨fun | .terminal _ => rfl, fun h => h ▸ .terminal token⟩

@[simp] theorem derives_empty_iff {w : List Token} : g.Derives .empty w ↔ w = [] :=
  ⟨fun | .empty => rfl, fun h => h ▸ .empty⟩

theorem derives_nonterminal_iff {symbol : Nonterminal} {w : List Token} :
    g.Derives (.nonterminal symbol) w ↔
      ∃ rule ∈ g.rules, rule.lhs = symbol ∧ g.Derives rule.rhs w :=
  ⟨fun | .nonterminal mem rhs => ⟨_, mem, rfl, rhs⟩,
    fun ⟨_, mem, hlhs, rhs⟩ => hlhs ▸ .nonterminal mem rhs⟩

@[simp] theorem derives_nil_iff {w : List Token} : g.Derives (.seq []) w ↔ w = [] :=
  ⟨fun | .nil => rfl, fun h => h ▸ .nil⟩

theorem derives_cons_iff {e : Expr} {es : List Expr} {w : List Token} :
    g.Derives (.seq (e :: es)) w ↔
      ∃ u v, w = u ++ v ∧ g.Derives e u ∧ g.Derives (.seq es) v :=
  ⟨fun | .cons head tail => ⟨_, _, rfl, head, tail⟩,
    fun ⟨_, _, hw, head, tail⟩ => hw ▸ .cons head tail⟩

end Grammar

namespace Tree

/-- The item of a right-hand side that a tree stands for. -/
def root : Tree → Expr
  | .leaf token => .terminal token
  | .epsilon => .empty
  | .node symbol _ => .nonterminal symbol

/-- Every node of the tree applies a rule of the grammar. -/
inductive IsDerivation (g : Grammar) : Tree → Prop where
  | leaf (token : Token) : IsDerivation g (.leaf token)
  | epsilon : IsDerivation g .epsilon
  | node {rule : Rule} {children : List Tree} (mem : rule ∈ g.rules)
      (items : rule.rhs.items = children.map root)
      (children_isDerivation : ∀ child ∈ children, IsDerivation g child) :
      IsDerivation g (.node rule.lhs children)

theorem IsDerivation.derives {g : Grammar} {t : Tree} (h : t.IsDerivation g) :
    g.Derives t.root t.tokens := by
  induction h with
  | leaf token => exact .terminal token
  | epsilon => exact .empty
  | @node rule children mem items below ih =>
    have hseq : g.Derives (.seq (children.map root)) (children.flatMap tokens) := by
      clear items below
      induction children with
      | nil => exact .nil
      | cons t ts ihs =>
        exact .cons (ih t (by simp)) (ihs fun child hc => ih child (by simp [hc]))
    rw [tokens_node]
    refine .nonterminal mem ?_
    rw [← items] at hseq
    cases hrhs : rule.rhs with
    | seq => simpa [hrhs, Expr.items] using hseq
    | terminal | nonterminal | empty | alt =>
      simpa [hrhs, Expr.items, Grammar.derives_cons_iff] using hseq

end Tree

end ContextFree
