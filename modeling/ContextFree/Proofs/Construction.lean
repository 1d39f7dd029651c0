import Mathlib.Algebra.BigOperators.Group.List.Defs
import ContextFree.Proofs.Expr.Substitution
import ContextFree.Proofs.Grammar.Stages
import ContextFree.Source.Reader

/-!
# What can be built

Whatever is made of atoms by sequences, choices and replacements, read from a source, left by a
transformation or found inside any of these is well-formed, and nothing else is
(`Expr.isBuilt_iff_wellFormed`). That is to say that each of its nodes has the right shape
(`Expr.wellFormed_iff_forall_isPartOf`). To concatenate such expressions is to multiply them in a
monoid (`Expr.coe_prod`).
-/

namespace ContextFree

namespace Expr

variable {e part : Expr} {es fs items : List Expr}

/-! ## Parts -/

/-- An expression and whatever is below it, at any depth. -/
inductive IsPartOf (part : Expr) : Expr → Prop where
  | self : IsPartOf part part
  | item {e : Expr} {items : List Expr} (mem : e ∈ items) (isPartOf : IsPartOf part e) :
      IsPartOf part (.seq items)
  | alternative {e : Expr} {alternatives : List Expr} (mem : e ∈ alternatives)
      (isPartOf : IsPartOf part e) : IsPartOf part (.alt alternatives)

/-- Whether a sequence has at least two items, none of which is a sequence or the empty string, and
a choice at least two alternatives. What is below them does not matter. -/
def HasShape : Expr → Prop
  | .seq items => 2 ≤ items.length ∧ .empty ∉ items ∧ ∀ inner, .seq inner ∉ items
  | .alt alternatives => 2 ≤ alternatives.length
  | .terminal _ | .nonterminal _ | .empty => True

theorem forall_isFactor_iff :
    (∀ e ∈ items, e.isFactor) ↔ .empty ∉ items ∧ ∀ inner, .seq inner ∉ items := by
  constructor
  · intro h
    exact ⟨fun hmem => by simpa [isFactor] using h _ hmem,
      fun inner hmem => by simpa [isFactor] using h _ hmem⟩
  · rintro ⟨hempty, hseq⟩ e he
    cases e with
    | terminal | nonterminal | alt => rfl
    | empty => exact absurd he hempty
    | seq inner => exact absurd he (hseq inner)

theorem WellFormed.hasShape (h : e.WellFormed) : e.HasShape := by
  cases h with
  | terminal | nonterminal | empty => trivial
  | seq two_le isFactor _ => exact ⟨two_le, forall_isFactor_iff.mp isFactor⟩
  | alt two_le _ => exact two_le

theorem WellFormed.of_isPartOf (h : e.WellFormed) (hpart : part.IsPartOf e) : part.WellFormed := by
  induction hpart with
  | self => exact h
  | item mem _ ih => exact ih ((wellFormed_seq.mp h).2.2 _ mem)
  | alternative mem _ ih => exact ih ((wellFormed_alt.mp h).2 _ mem)

/-- An expression is well-formed when all of its nodes have the right shape. -/
theorem wellFormed_iff_forall_isPartOf :
    e.WellFormed ↔ ∀ part : Expr, part.IsPartOf e → part.HasShape := by
  constructor
  · exact fun h part hpart => (h.of_isPartOf hpart).hasShape
  · intro h
    induction e with
    | terminal token => exact .terminal token
    | nonterminal symbol => exact .nonterminal symbol
    | empty => exact .empty
    | seq items ih =>
      obtain ⟨two_le, hfactor⟩ : HasShape (.seq items) := h _ .self
      refine .seq two_le (forall_isFactor_iff.mpr hfactor) fun item hi => ?_
      exact ih item hi fun part hpart => h part (.item hi hpart)
    | alt alternatives ih =>
      have two_le : HasShape (.alt alternatives) := h _ .self
      exact .alt two_le fun item hi => ih item hi fun part hpart => h part (.alternative hi hpart)

/-- What can be had from atoms by concatenating, choosing and replacing, from sources by reading
them, from grammars of such right-hand sides by transforming them, and whatever is part of that. -/
inductive IsBuilt : Expr → Prop where
  | terminal (token : Token) : IsBuilt (.terminal token)
  | nonterminal (symbol : Nonterminal) : IsBuilt (.nonterminal symbol)
  | empty : IsBuilt .empty
  | concat {es : List Expr} (es_isBuilt : ∀ e ∈ es, IsBuilt e) : IsBuilt (concat es)
  | choice {es : List Expr} {e : Expr} (es_isBuilt : ∀ e ∈ es, IsBuilt e)
      (eq_some : choice? es = some e) : IsBuilt e
  | replace {e replacement : Expr} (isBuilt : IsBuilt e) (needle : Expr)
      (replacement_isBuilt : IsBuilt replacement) : IsBuilt (e.replace needle replacement)
  | part {e part : Expr} (isBuilt : IsBuilt e) (isPartOf : part.IsPartOf e) : IsBuilt part
  | read {source : String} {g : Grammar} {rule : Rule} (eq_ok : Grammar.parse source = .ok g)
      (mem : rule ∈ g.rules) : IsBuilt rule.rhs
  | transformed {g : Grammar} {rule : Rule} (g_isBuilt : ∀ rule ∈ g.rules, IsBuilt rule.rhs)
      (a : Arithmetic) (stage : Stage) (mem : rule ∈ (stage.apply a g).rules) : IsBuilt rule.rhs

theorem IsBuilt.wellFormed (h : e.IsBuilt) : e.WellFormed := by
  induction h with
  | terminal token => exact .terminal token
  | nonterminal symbol => exact .nonterminal symbol
  | empty => exact .empty
  | concat _ ih => exact wellFormed_concat ih
  | choice _ eq_some ih => exact wellFormed_of_choice? ih eq_some
  | replace _ needle _ ih ihr => exact wellFormed_replace ih ihr
  | part _ isPartOf ih => exact ih.of_isPartOf isPartOf
  | @read _ g rule _ mem => exact g.wellFormed rule mem
  | @transformed g rule _ a stage mem _ => exact (stage.apply a g).wellFormed rule mem

/-- Atoms, sequences and choices suffice. -/
theorem WellFormed.isBuilt (h : e.WellFormed) : e.IsBuilt := by
  induction e with
  | terminal token => exact .terminal token
  | nonterminal symbol => exact .nonterminal symbol
  | empty => exact .empty
  | seq items ih =>
    have hitems := (wellFormed_seq.mp h).2.2
    have hbuilt : (concat items).IsBuilt := .concat fun item hi => ih item hi (hitems item hi)
    rwa [show concat items = .seq items from h.concat_items] at hbuilt
  | alt alternatives ih =>
    obtain ⟨two_le, halts⟩ := wellFormed_alt.mp h
    refine .choice (fun item hi => ih item hi (halts item hi)) ?_
    match alternatives, two_le with
    | _ :: _ :: _, _ => rfl

theorem isBuilt_iff_wellFormed : e.IsBuilt ↔ e.WellFormed :=
  ⟨IsBuilt.wellFormed, WellFormed.isBuilt⟩

/-! ## Concatenation as a product -/

/-- The concatenation of concatenations is that of all their members. -/
theorem concat_map_concat {ess : List (List Expr)} (h : ∀ es ∈ ess, ∀ e ∈ es, e.WellFormed) :
    concat (ess.map concat) = concat ess.flatten := by
  have hfactors : (ess.map concat).flatMap factors = ess.flatten.flatMap factors :=
    calc (ess.map concat).flatMap factors
      _ = ess.flatMap fun es => (concat es).factors := List.flatMap_map ..
      _ = ess.flatMap fun es => es.flatMap factors :=
        List.flatMap_congr fun es hes => factors_concat (h es hes)
      _ = ess.flatten.flatMap factors := by
        rw [← List.flatMap_id, List.flatMap_assoc]
        rfl
  exact congrArg ofFactors hfactors

/-- Where a list is cut does not matter. -/
theorem concat_append (h : ∀ e ∈ es ++ fs, e.WellFormed) :
    concat (es ++ fs) = concat [concat es, concat fs] := by
  have hboth : ∀ gs ∈ [es, fs], ∀ e ∈ gs, e.WellFormed := by
    simpa [or_imp, forall_and] using h
  simpa using (concat_map_concat hboth).symm

theorem concat_cons (h : ∀ f ∈ e :: es, f.WellFormed) :
    concat (e :: es) = concat [e, concat es] := by
  have hcons : concat ([e] ++ es) = concat [concat [e], concat es] := concat_append h
  rwa [concat_singleton (h e List.mem_cons_self)] at hcons

/-- Well-formed expressions are a monoid, with the empty string as its unit. -/
instance : Monoid {e : Expr // e.WellFormed} where
  mul e f := ⟨concat [e, f], wellFormed_concat (by simp [e.2, f.2])⟩
  one := ⟨.empty, .empty⟩
  mul_assoc e f g := Subtype.ext <|
    calc concat [concat [e, f], g]
      _ = concat [e, f, g] := concat_concat_cons (by simp [e.2, f.2])
      _ = concat [e, concat [f, g]] := concat_cons (by simp [e.2, f.2, g.2])
  one_mul e := Subtype.ext (concat_singleton e.2)
  mul_one e := Subtype.ext <|
    calc concat [e, .empty]
      _ = concat [e] := by simp [concat, factors]
      _ = e := concat_singleton e.2

theorem coe_mul (e f : {e : Expr // e.WellFormed}) : (e * f).val = concat [e, f] := rfl

/-- The concatenation of a list is its product. -/
theorem coe_prod (es : List {e : Expr // e.WellFormed}) :
    es.prod.val = concat (es.map Subtype.val) := by
  induction es with
  | nil => rfl
  | cons e es ih =>
    have hes : ∀ f ∈ e.val :: es.map Subtype.val, f.WellFormed :=
      List.forall_mem_cons.mpr ⟨e.2, List.forall_mem_map.mpr fun f _ => f.2⟩
    rw [List.prod_cons, coe_mul, ih, List.map_cons, concat_cons hes]

/-- What can be built is what is well-formed at every depth, so that any list of rules with such
right-hand sides makes a grammar. Concatenation is the product of a monoid there: it does not depend
on how a list is grouped, and it puts an expression together again from its items. -/
theorem isBuilt_spec :
    (∀ e : Expr, e.IsBuilt ↔ e.WellFormed) ∧
    (∀ e : Expr, e.WellFormed ↔ ∀ part : Expr, part.IsPartOf e → part.HasShape) ∧
    (∀ rules : List Rule, (∀ rule ∈ rules, rule.rhs.IsBuilt) →
      ∃ g, Grammar.ofRules? rules = some g ∧ g.rules = rules.eraseDups) ∧
    (∀ es : List {e : Expr // e.WellFormed}, es.prod.val = concat (es.map Subtype.val)) ∧
    (∀ es fs : List Expr, (∀ e ∈ es ++ fs, e.WellFormed) →
      concat (es ++ fs) = concat [concat es, concat fs]) ∧
    ∀ e : Expr, e.WellFormed → concat e.items = e := by
  refine ⟨fun e => isBuilt_iff_wellFormed, fun e => wellFormed_iff_forall_isPartOf,
    fun rules h => ?_, coe_prod, fun es fs => concat_append, fun e => WellFormed.concat_items⟩
  have hwf : ∀ rule ∈ rules, rule.rhs.WellFormed := fun rule hr => (h rule hr).wellFormed
  exact ⟨Grammar.ofRules rules hwf, dif_pos hwf, rfl⟩

end Expr

end ContextFree
