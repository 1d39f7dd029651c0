import ContextFree.Grammar.Binary
import ContextFree.Grammar.Nullable
import ContextFree.Grammar.Unit
import ContextFree.Grammar.Useful

/-!
# Chomsky normal form

A grammar is in normal form when every rule produces one token or a pair of nonterminals; only the
start symbol may also produce the empty string. Choices count as the rules of their alternatives.
-/

namespace ContextFree

namespace Expr

mutual

/-- Whether the right-hand side of a rule is in normal form. -/
def isCnf (isStart : Bool) : Expr → Bool
  | .terminal _ => true
  | .nonterminal _ => false
  | .empty => isStart
  | .seq items => items.length == 2 && items.all fun item => item.nonterminal?.isSome
  | .alt alternatives => allCnf isStart alternatives

/-- Whether all alternatives are in normal form. -/
def allCnf (isStart : Bool) : List Expr → Bool
  | [] => true
  | e :: es => isCnf isStart e && allCnf isStart es

end

theorem allCnf_eq_all (isStart : Bool) (es : List Expr) :
    allCnf isStart es = es.all (isCnf isStart) := by
  induction es with
  | nil => rfl
  | cons e es ih => rw [allCnf, ih, List.all_cons]

end Expr

namespace Grammar

/-- Whether a grammar is in Chomsky normal form. -/
def isCnf (g : Grammar) : Bool :=
  g.rules.all fun rule => rule.rhs.isCnf (decide (some rule.lhs = g.start?))

/-- The Chomsky normal form of a grammar. -/
def toCnf (a : Arithmetic) (g : Grammar) : Grammar :=
  (g.splitAlternatives.eliminateEpsilon a).eliminateUnits.usefulPart.binarize

/-- Brings a grammar to Chomsky normal form, unless the program stops on the way. -/
def toCnf? (a : Arithmetic) (g : Grammar) : Option Grammar := do
  let positive ← g.splitAlternatives.eliminateEpsilon? a
  return positive.eliminateUnits.usefulPart.binarize

end Grammar

end ContextFree
