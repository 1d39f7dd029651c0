import ContextFree.Expr.Basic

/-!
# Well-formed right-hand sides

Sequences are flat, drop the empty string and have at least two items; choices have at least two
alternatives. `Expr.concat` and `Expr.anyOf` build such expressions from well-formed parts.
-/

namespace ContextFree

namespace Expr

/-! ## Sequences and choices in normal shape -/

/-- What an expression contributes to a sequence: the items of a sequence, and nothing for the
empty string. -/
def factors : Expr → List Expr
  | .seq items => items
  | .empty => []
  | e => [e]

/-- The expression with the given factors. -/
def ofFactors : List Expr → Expr
  | [] => .empty
  | [e] => e
  | es => .seq es

/-- The concatenation of expressions. -/
def concat (es : List Expr) : Expr :=
  ofFactors (es.flatMap factors)

/-- The choice among expressions; a single one is no choice. It is meant for nonempty lists. -/
def anyOf : List Expr → Expr
  | [e] => e
  | es => .alt es

/-- The choice among expressions, if there is something to choose from. -/
def choice? : List Expr → Option Expr
  | [] => none
  | es => some (anyOf es)

/-- Puts `replacement` in the place of every atom equal to `needle`. -/
def replace (e needle replacement : Expr) : Expr :=
  e.fold (fun atom => if atom = needle then replacement else atom) concat anyOf

@[simp] theorem replace_seq (items : List Expr) (needle replacement : Expr) :
    (seq items).replace needle replacement = concat (items.map (·.replace needle replacement)) :=
  fold_seq items

@[simp] theorem replace_alt (alternatives : List Expr) (needle replacement : Expr) :
    (alt alternatives).replace needle replacement =
      anyOf (alternatives.map (·.replace needle replacement)) :=
  fold_alt alternatives

theorem replace_of_isAtom {e needle replacement : Expr} (h : e.isAtom) :
    e.replace needle replacement = if e = needle then replacement else e := by
  cases e <;> first | rfl | simp [isAtom] at h

/-! ## Well-formedness -/

/-- Whether an expression may stand in a sequence. -/
def isFactor : Expr → Bool
  | .seq _ | .empty => false
  | _ => true

/-- At every depth, sequences hold at least two factors and choices at least two alternatives. -/
inductive WellFormed : Expr → Prop where
  | terminal (token : Token) : WellFormed (.terminal token)
  | nonterminal (symbol : Nonterminal) : WellFormed (.nonterminal symbol)
  | empty : WellFormed .empty
  | seq {items : List Expr} (two_le : 2 ≤ items.length) (isFactor : ∀ e ∈ items, e.isFactor)
      (items_wellFormed : ∀ e ∈ items, e.WellFormed) : WellFormed (.seq items)
  | alt {alternatives : List Expr} (two_le : 2 ≤ alternatives.length)
      (alternatives_wellFormed : ∀ e ∈ alternatives, e.WellFormed) : WellFormed (.alt alternatives)

theorem wellFormed_seq {items : List Expr} : (Expr.seq items).WellFormed ↔
    2 ≤ items.length ∧ (∀ e ∈ items, e.isFactor) ∧ ∀ e ∈ items, e.WellFormed :=
  ⟨fun | .seq two_le isFactor items => ⟨two_le, isFactor, items⟩, fun h => .seq h.1 h.2.1 h.2.2⟩

theorem wellFormed_alt {alternatives : List Expr} : (Expr.alt alternatives).WellFormed ↔
    2 ≤ alternatives.length ∧ ∀ e ∈ alternatives, e.WellFormed :=
  ⟨fun | .alt two_le alternatives => ⟨two_le, alternatives⟩, fun h => .alt h.1 h.2⟩

mutual

/-- Decides well-formedness. -/
def isWellFormed : Expr → Bool
  | .seq items => decide (2 ≤ items.length) && items.all isFactor && allWellFormed items
  | .alt alternatives => decide (2 ≤ alternatives.length) && allWellFormed alternatives
  | _ => true

/-- Decides whether all expressions of a list are well-formed. -/
def allWellFormed : List Expr → Bool
  | [] => true
  | e :: es => isWellFormed e && allWellFormed es

end

theorem allWellFormed_eq_all (es : List Expr) : allWellFormed es = es.all isWellFormed := by
  induction es with
  | nil => rfl
  | cons e es ih => rw [allWellFormed, ih, List.all_cons]

theorem isWellFormed_iff {e : Expr} : e.isWellFormed ↔ e.WellFormed := by
  induction e with
  | terminal => simp [isWellFormed, WellFormed.terminal]
  | nonterminal => simp [isWellFormed, WellFormed.nonterminal]
  | empty => simp [isWellFormed, WellFormed.empty]
  | seq items ih =>
    simp only [isWellFormed, allWellFormed_eq_all, Bool.and_eq_true, decide_eq_true_eq,
      List.all_eq_true, wellFormed_seq, and_assoc]
    exact and_congr_right fun _ => and_congr_right fun _ => forall₂_congr ih
  | alt alternatives ih =>
    simp only [isWellFormed, allWellFormed_eq_all, Bool.and_eq_true, decide_eq_true_eq,
      List.all_eq_true, wellFormed_alt]
    exact and_congr_right fun _ => forall₂_congr ih

instance (e : Expr) : Decidable e.WellFormed :=
  decidable_of_iff _ isWellFormed_iff

theorem WellFormed.of_mem_items {e item : Expr} (h : e.WellFormed) (hi : item ∈ e.items) :
    item.WellFormed := by
  cases h with
  | seq _ _ h => exact h item hi
  | terminal | nonterminal | empty => simp_all [items, WellFormed.terminal,
      WellFormed.nonterminal, WellFormed.empty]
  | alt two_le h => simp_all [items, wellFormed_alt]

theorem WellFormed.of_mem_factors {e f : Expr} (h : e.WellFormed) (hf : f ∈ e.factors) :
    f.isFactor ∧ f.WellFormed := by
  cases h with
  | seq _ hfac h => exact ⟨hfac f hf, h f hf⟩
  | empty => simp [factors] at hf
  | terminal | nonterminal => simp_all [factors, isFactor, WellFormed.terminal,
      WellFormed.nonterminal]
  | alt two_le h => simp_all [factors, isFactor, wellFormed_alt]

theorem wellFormed_ofFactors {es : List Expr} (h : ∀ e ∈ es, e.isFactor ∧ e.WellFormed) :
    (ofFactors es).WellFormed := by
  match es, h with
  | [], _ => exact .empty
  | [e], h => exact (h e (by simp)).2
  | _ :: _ :: _, h => exact .seq (by simp) (fun e he => (h e he).1) fun e he => (h e he).2

theorem wellFormed_concat {es : List Expr} (h : ∀ e ∈ es, e.WellFormed) :
    (concat es).WellFormed := by
  refine wellFormed_ofFactors fun f hf => ?_
  obtain ⟨e, he, hf⟩ := List.mem_flatMap.mp hf
  exact (h e he).of_mem_factors hf

theorem wellFormed_anyOf {es : List Expr} (hne : es ≠ []) (h : ∀ e ∈ es, e.WellFormed) :
    (anyOf es).WellFormed := by
  match es, hne, h with
  | [e], _, h => exact h e (by simp)
  | _ :: _ :: _, _, h => exact .alt (by simp) h

theorem wellFormed_of_choice? {es : List Expr} {e : Expr} (h : ∀ e ∈ es, e.WellFormed)
    (he : choice? es = some e) : e.WellFormed := by
  match es, h, he with
  | _ :: _, h, rfl => exact wellFormed_anyOf (by simp) h

theorem wellFormed_replace {e needle replacement : Expr} (he : e.WellFormed)
    (hr : replacement.WellFormed) : (e.replace needle replacement).WellFormed := by
  induction e with
  | terminal | nonterminal | empty =>
    rw [replace_of_isAtom rfl]
    split
    · exact hr
    · exact he
  | seq items ih =>
    rw [replace_seq]
    refine wellFormed_concat fun f hf => ?_
    obtain ⟨e, hmem, rfl⟩ := List.mem_map.mp hf
    exact ih e hmem ((wellFormed_seq.mp he).2.2 e hmem)
  | alt alternatives ih =>
    obtain ⟨two_le, h⟩ := wellFormed_alt.mp he
    rw [replace_alt]
    refine wellFormed_anyOf ?_ fun f hf => ?_
    · intro hnil
      simp_all
    · obtain ⟨e, hmem, rfl⟩ := List.mem_map.mp hf
      exact ih e hmem (h e hmem)

end Expr

end ContextFree
