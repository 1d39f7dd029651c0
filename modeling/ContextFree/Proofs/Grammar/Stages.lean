import ContextFree.Grammar.NormalForm
import ContextFree.Proofs.Grammar.Binary
import ContextFree.Proofs.Grammar.Nullable
import ContextFree.Proofs.Grammar.Unit

/-!
# Transformations one after the other

Any transformation may be applied to what any other one has produced. No run of transformations
leads to another start symbol or generates new inputs. Inputs can only be lost where unproductive
rules are left out of a grammar that has choices, for there a rule is dropped although some of its
alternatives are productive.
-/

namespace ContextFree

namespace Grammar

/-- Normalizing keeps the language: nothing has a choice when the useless rules are left out. -/
theorem preserves_toCnf (g : Grammar) : (g.toCnf .unbounded).Preserves g :=
  preserves_binarize.trans ((preserves_usefulPart eliminateUnits_isChoiceFree).trans
    (preserves_eliminateUnits.trans (preserves_eliminateEpsilon.trans preserves_splitAlternatives)))

end Grammar

/-- A transformation of grammars. -/
inductive Stage where
  | splitAlternatives
  | joinAlternatives
  | eliminateEpsilon
  | eliminateUnits
  | productivePart
  | reachablePart
  | usefulPart
  | binarize
  | toCnf
deriving DecidableEq

namespace Stage

variable {g : Grammar}

/-- The grammar after a transformation. -/
def apply (a : Arithmetic) : Stage → Grammar → Grammar
  | splitAlternatives => Grammar.splitAlternatives
  | joinAlternatives => Grammar.joinAlternatives
  | eliminateEpsilon => Grammar.eliminateEpsilon a
  | eliminateUnits => Grammar.eliminateUnits
  | productivePart => Grammar.productivePart
  | reachablePart => Grammar.reachablePart
  | usefulPart => Grammar.usefulPart
  | binarize => Grammar.binarize
  | toCnf => Grammar.toCnf a

/-- Whether a transformation leaves out the unproductive rules of the very grammar it is given. -/
def dropsUnproductive : Stage → Bool
  | productivePart | usefulPart => true
  | splitAlternatives | joinAlternatives | eliminateEpsilon | eliminateUnits | reachablePart
  | binarize | toCnf => false

theorem refines_apply (stage : Stage) (g : Grammar) : (stage.apply .unbounded g).Refines g := by
  cases stage with
  | splitAlternatives => exact Grammar.preserves_splitAlternatives.toRefines
  | joinAlternatives => exact Grammar.preserves_joinAlternatives.toRefines
  | eliminateEpsilon => exact Grammar.preserves_eliminateEpsilon.toRefines
  | eliminateUnits => exact Grammar.preserves_eliminateUnits.toRefines
  | productivePart => exact Grammar.refines_productivePart
  | reachablePart => exact Grammar.preserves_reachablePart.toRefines
  | usefulPart => exact Grammar.refines_usefulPart
  | binarize => exact Grammar.preserves_binarize.toRefines
  | toCnf => exact g.preserves_toCnf.toRefines

theorem preserves_apply (stage : Stage) (h : stage.dropsUnproductive → g.IsChoiceFree) :
    (stage.apply .unbounded g).Preserves g := by
  cases stage with
  | splitAlternatives => exact Grammar.preserves_splitAlternatives
  | joinAlternatives => exact Grammar.preserves_joinAlternatives
  | eliminateEpsilon => exact Grammar.preserves_eliminateEpsilon
  | eliminateUnits => exact Grammar.preserves_eliminateUnits
  | productivePart => exact Grammar.preserves_productivePart (h rfl)
  | reachablePart => exact Grammar.preserves_reachablePart
  | usefulPart => exact Grammar.preserves_usefulPart (h rfl)
  | binarize => exact Grammar.preserves_binarize
  | toCnf => exact g.preserves_toCnf

/-- The grammar after a run of transformations, the first of the list first. -/
def run (a : Arithmetic) : List Stage → Grammar → Grammar
  | [], g => g
  | stage :: stages, g => run a stages (stage.apply a g)

/-- Whether unproductive rules are only left out of grammars without choices during a run. -/
def IsLossless (a : Arithmetic) : List Stage → Grammar → Prop
  | [], _ => True
  | stage :: stages, g =>
    (stage.dropsUnproductive → g.IsChoiceFree) ∧ IsLossless a stages (stage.apply a g)

theorem refines_run (stages : List Stage) (g : Grammar) : (run .unbounded stages g).Refines g := by
  induction stages generalizing g with
  | nil => exact .rfl
  | cons stage stages ih => exact (ih _).trans (stage.refines_apply g)

theorem preserves_run {stages : List Stage} (h : IsLossless .unbounded stages g) :
    (run .unbounded stages g).Preserves g := by
  induction stages generalizing g with
  | nil => exact .rfl
  | cons stage stages ih => exact (ih h.2).trans (stage.preserves_apply h.1)

/-- Whatever transformations are applied in whatever order, the start symbol is kept as long as
there are rules and no input is gained; none is lost either if unproductive rules are only left out
of grammars without choices, as in normalizing. -/
theorem generates_run (stages : List Stage) (g : Grammar) :
    ((run .unbounded stages g).rules = [] ∨ (run .unbounded stages g).start? = g.start?) ∧
      (∀ w, (run .unbounded stages g).Generates w → g.Generates w) ∧
      (IsLossless .unbounded stages g →
        ∀ w, (run .unbounded stages g).Generates w ↔ g.Generates w) ∧
      ∀ w, (g.toCnf .unbounded).Generates w ↔ g.Generates w := by
  have hrefines := refines_run stages g
  refine ⟨hrefines.start, fun w => hrefines.generates, fun h w => ?_, fun w => ?_⟩
  · exact (preserves_run h).generates_iff
  · exact g.preserves_toCnf.generates_iff

end Stage

end ContextFree
