import Mathlib.Algebra.Order.BigOperators.Group.List
import Mathlib.Computability.Language
import Mathlib.Order.CompletePartialOrder
import ContextFree.Expr.WellFormed

/-!
# Languages of right-hand sides

When languages are given to the tokens and to the nonterminals, an expression denotes a language as
well: sequences denote products and choices denote sums. The denotation does not depend on how an
expression is put together, and it grows with the languages of the nonterminals that occur.
-/

namespace ContextFree

/-- A language for every nonterminal. -/
abbrev Valuation := Nonterminal → Language Token

/-- As a language, a token holds just itself. -/
def spell (token : Token) : Language Token := {[token]}

@[simp] theorem mem_spell {token : Token} {w : List Token} : w ∈ spell token ↔ w = [token] :=
  Iff.rfl

theorem mem_list_sum {α : Type} {ls : List (Language α)} {w : List α} :
    w ∈ ls.sum ↔ ∃ l ∈ ls, w ∈ l := by
  induction ls with
  | nil => simp
  | cons l ls ih => simp [List.sum_cons, Language.mem_add, ih]

namespace Expr

/-- The language of an expression, given those of tokens and nonterminals. -/
def denote (tokens : Token → Language Token) (I : Valuation) : Expr → Language Token :=
  fold (fun
    | .terminal token => tokens token
    | .nonterminal symbol => I symbol
    | _ => 1) List.prod List.sum

variable {tokens : Token → Language Token} {I J : Valuation}

@[simp] theorem denote_terminal (token : Token) :
    denote tokens I (.terminal token) = tokens token := rfl

@[simp] theorem denote_nonterminal (symbol : Nonterminal) :
    denote tokens I (.nonterminal symbol) = I symbol := rfl

@[simp] theorem denote_empty : denote tokens I .empty = 1 := rfl

@[simp] theorem denote_seq (items : List Expr) :
    denote tokens I (.seq items) = (items.map (denote tokens I)).prod := fold_seq items

@[simp] theorem denote_alt (alternatives : List Expr) :
    denote tokens I (.alt alternatives) = (alternatives.map (denote tokens I)).sum :=
  fold_alt alternatives

theorem mem_denote_alt {alternatives : List Expr} {w : List Token} :
    w ∈ denote tokens I (.alt alternatives) ↔ ∃ e ∈ alternatives, w ∈ e.denote tokens I := by
  simp [mem_list_sum]

/-! ## Putting expressions together -/

theorem prod_denote_items (e : Expr) :
    (e.items.map (denote tokens I)).prod = e.denote tokens I := by
  cases e <;> simp [items]

theorem prod_denote_factors (e : Expr) :
    (e.factors.map (denote tokens I)).prod = e.denote tokens I := by
  cases e <;> simp [factors]

@[simp] theorem denote_ofFactors (es : List Expr) :
    (ofFactors es).denote tokens I = (es.map (denote tokens I)).prod := by
  match es with
  | [] => rfl
  | [e] => simp [ofFactors]
  | _ :: _ :: _ => simp [ofFactors]

@[simp] theorem denote_concat (es : List Expr) :
    (concat es).denote tokens I = (es.map (denote tokens I)).prod := by
  rw [concat, denote_ofFactors]
  induction es with
  | nil => rfl
  | cons e es ih =>
    rw [List.flatMap_cons, List.map_append, List.prod_append, prod_denote_factors, ih,
      List.map_cons, List.prod_cons]

@[simp] theorem denote_anyOf (es : List Expr) :
    (anyOf es).denote tokens I = (es.map (denote tokens I)).sum := by
  match es with
  | [] => simp [anyOf]
  | [e] => simp [anyOf]
  | _ :: _ :: _ => simp [anyOf]

/-! ## Dependence on the nonterminals -/

theorem mem_nonterminals_seq {items : List Expr} {symbol : Nonterminal} :
    symbol ∈ (seq items).nonterminals ↔ ∃ e ∈ items, symbol ∈ e.nonterminals := by
  simp [mem_nonterminals]

theorem mem_nonterminals_alt {alternatives : List Expr} {symbol : Nonterminal} :
    symbol ∈ (alt alternatives).nonterminals ↔ ∃ e ∈ alternatives, symbol ∈ e.nonterminals := by
  simp [mem_nonterminals]

theorem mem_nonterminals_of_mem_items {e item : Expr} (hi : item ∈ e.items) {symbol : Nonterminal}
    (hs : symbol ∈ item.nonterminals) : symbol ∈ e.nonterminals := by
  cases e with
  | seq items => exact mem_nonterminals_seq.mpr ⟨item, hi, hs⟩
  | terminal | nonterminal | empty | alt => rwa [← List.mem_singleton.mp hi]

theorem mem_nonterminals_factors {e : Expr} {symbol : Nonterminal} :
    (∃ f ∈ e.factors, symbol ∈ f.nonterminals) ↔ symbol ∈ e.nonterminals := by
  cases e <;> simp [factors, mem_nonterminals]

theorem mem_nonterminals_concat {es : List Expr} {symbol : Nonterminal} :
    symbol ∈ (concat es).nonterminals ↔ ∃ e ∈ es, symbol ∈ e.nonterminals := by
  have hof (fs : List Expr) :
      symbol ∈ (ofFactors fs).nonterminals ↔ ∃ f ∈ fs, symbol ∈ f.nonterminals := by
    match fs with
    | [] => simp [ofFactors, mem_nonterminals]
    | [f] => simp [ofFactors]
    | _ :: _ :: _ => exact mem_nonterminals_seq
  rw [concat, hof]
  constructor
  · intro h
    obtain ⟨f, hf, hs⟩ := h
    obtain ⟨e, he, hf⟩ := List.mem_flatMap.mp hf
    exact ⟨e, he, mem_nonterminals_factors.mp ⟨f, hf, hs⟩⟩
  · intro h
    obtain ⟨e, he, hs⟩ := h
    obtain ⟨f, hf, hs⟩ := mem_nonterminals_factors.mpr hs
    exact ⟨f, List.mem_flatMap.mpr ⟨e, he, hf⟩, hs⟩

theorem denote_mono {e : Expr} (h : ∀ symbol ∈ e.nonterminals, I symbol ≤ J symbol) :
    e.denote tokens I ≤ e.denote tokens J := by
  induction e with
  | terminal | empty => exact le_rfl
  | nonterminal symbol => exact h symbol (by simp [mem_nonterminals])
  | seq items ih =>
    rw [denote_seq, denote_seq]
    exact List.prod_le_prod' fun e he =>
      ih e he fun symbol hs => h symbol (mem_nonterminals_seq.mpr ⟨e, he, hs⟩)
  | alt alternatives ih =>
    intro w hw
    obtain ⟨e, he, hw⟩ := mem_denote_alt.mp hw
    exact mem_denote_alt.mpr ⟨e, he,
      ih e he (fun symbol hs => h symbol (mem_nonterminals_alt.mpr ⟨e, he, hs⟩)) hw⟩

theorem denote_congr {e : Expr} (h : ∀ symbol ∈ e.nonterminals, I symbol = J symbol) :
    e.denote tokens I = e.denote tokens J :=
  le_antisymm (denote_mono fun symbol hs => (h symbol hs).le)
    (denote_mono fun symbol hs => (h symbol hs).ge)

end Expr

end ContextFree
