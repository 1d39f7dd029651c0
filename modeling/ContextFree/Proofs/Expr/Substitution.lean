import ContextFree.Proofs.Expr.ChoiceFree
import ContextFree.Proofs.Expr.Denotation

/-!
# Substitution

A substitution puts a well-formed expression in the place of each nonterminal, all at once;
sequences and choices are put together anew on the way up. Replacing one nonterminal is a special
case (`Expr.replace_eq_subst`). Since concatenation is flattening, one substitution after another
comes to a single one (`Expr.WellFormed.subst_subst`).
-/

namespace ContextFree

/-- A well-formed expression for every nonterminal. -/
structure Substitution where
  expr : Nonterminal → Expr
  wellFormed : ∀ symbol, (expr symbol).WellFormed

namespace Substitution

instance : CoeFun Substitution fun _ => Nonterminal → Expr := ⟨expr⟩

/-- Every nonterminal stands for itself. -/
def id : Substitution :=
  ⟨.nonterminal, .nonterminal⟩

@[simp] theorem id_apply (symbol : Nonterminal) : id symbol = .nonterminal symbol := rfl

variable {σ : Substitution} {symbol other : Nonterminal} {e : Expr}

/-- Lets one symbol stand for a different expression. -/
def update (σ : Substitution) (symbol : Nonterminal) (e : Expr) (h : e.WellFormed) :
    Substitution where
  expr := Function.update σ symbol e
  wellFormed := (Function.forall_update_iff σ fun _ e => e.WellFormed).mpr
    ⟨h, fun other _ => σ.wellFormed other⟩

@[simp] theorem update_self (h : e.WellFormed) : σ.update symbol e h symbol = e := by
  simp [update]

theorem update_of_ne (h : e.WellFormed) (hne : other ≠ symbol) :
    σ.update symbol e h other = σ other := by
  simp [update, hne]

end Substitution

namespace Expr

variable {σ τ υ : Substitution} {e : Expr} {es fs : List Expr}

/-! ## Factors -/

theorem factors_ofFactors (h : ∀ e ∈ es, e.isFactor) : (ofFactors es).factors = es := by
  match es, h with
  | [], _ => rfl
  | [e], h =>
    have he : e.isFactor := h e (List.mem_singleton_self e)
    cases e with
    | terminal | nonterminal | alt => rfl
    | empty | seq => simp [isFactor] at he
  | _ :: _ :: _, _ => rfl

theorem WellFormed.ofFactors_factors (h : e.WellFormed) : ofFactors e.factors = e := by
  cases h with
  | terminal | nonterminal | empty | alt => rfl
  | seq two_le isFactor items => exact (WellFormed.seq two_le isFactor items).ofFactors_items

theorem factors_concat (h : ∀ e ∈ es, e.WellFormed) :
    (concat es).factors = es.flatMap factors := by
  refine factors_ofFactors fun f hf => ?_
  obtain ⟨e, he, hf⟩ := List.mem_flatMap.mp hf
  exact ((h e he).of_mem_factors hf).1

/-- A concatenation within a concatenation is flattened. -/
theorem concat_concat_cons (h : ∀ e ∈ es, e.WellFormed) :
    concat (concat es :: fs) = concat (es ++ fs) := by
  rw [concat, List.flatMap_cons, factors_concat h, ← List.flatMap_append]
  rfl

theorem concat_singleton (h : e.WellFormed) : concat [e] = e := by
  rw [concat, List.flatMap_singleton, h.ofFactors_factors]

theorem anyOf_of_two_le (h : 2 ≤ es.length) : anyOf es = .alt es := by
  match es, h with
  | _ :: _ :: _, _ => rfl

/-! ## Nonterminals from left to right -/

theorem nonterminals_nonterminal (symbol : Nonterminal) :
    (nonterminal symbol).nonterminals = [symbol] := rfl

theorem nonterminals_terminal (token : Token) : (terminal token).nonterminals = [] := rfl

theorem nonterminals_seq (items : List Expr) :
    (seq items).nonterminals = items.flatMap nonterminals := by
  rw [nonterminals, atoms_seq, List.filterMap_flatMap]
  rfl

theorem nonterminals_alt (alternatives : List Expr) :
    (alt alternatives).nonterminals = alternatives.flatMap nonterminals := by
  rw [nonterminals, atoms_alt, List.filterMap_flatMap]
  rfl

theorem flatMap_nonterminals_factors (e : Expr) :
    e.factors.flatMap nonterminals = e.nonterminals := by
  cases e with
  | seq items => exact (nonterminals_seq items).symm
  | empty => rfl
  | terminal | nonterminal | alt => exact List.flatMap_singleton _ _

theorem nonterminals_concat (es : List Expr) :
    (concat es).nonterminals = es.flatMap nonterminals := by
  have hof (fs : List Expr) : (ofFactors fs).nonterminals = fs.flatMap nonterminals := by
    match fs with
    | [] => rfl
    | [f] => simp [ofFactors]
    | _ :: _ :: _ => exact nonterminals_seq _
  rw [concat, hof, List.flatMap_assoc]
  simp only [flatMap_nonterminals_factors]

theorem nonterminals_anyOf (es : List Expr) :
    (anyOf es).nonterminals = es.flatMap nonterminals := by
  match es with
  | [] => exact nonterminals_alt []
  | [e] => simp [anyOf]
  | _ :: _ :: _ => exact nonterminals_alt _

/-! ## Substituting for all nonterminals -/

/-- Puts the expressions in the place of the nonterminals. -/
def subst (σ : Substitution) : Expr → Expr :=
  fold (fun atom => atom.nonterminal?.elim atom σ) concat anyOf

@[simp] theorem subst_terminal (token : Token) : (terminal token).subst σ = .terminal token := rfl

@[simp] theorem subst_nonterminal (symbol : Nonterminal) :
    (nonterminal symbol).subst σ = σ symbol := rfl

@[simp] theorem subst_empty : empty.subst σ = .empty := rfl

@[simp] theorem subst_seq (items : List Expr) :
    (seq items).subst σ = concat (items.map (subst σ)) := fold_seq items

@[simp] theorem subst_alt (alternatives : List Expr) :
    (alt alternatives).subst σ = anyOf (alternatives.map (subst σ)) := fold_alt alternatives

/-- To replace a nonterminal is to substitute for it alone. -/
theorem replace_eq_subst {symbol : Nonterminal} {replacement : Expr} (h : replacement.WellFormed)
    (e : Expr) :
    e.replace (.nonterminal symbol) replacement =
      e.subst (Substitution.id.update symbol replacement h) := by
  induction e with
  | terminal | empty => rfl
  | nonterminal other =>
    rw [replace_of_isAtom rfl, subst_nonterminal]
    split
    · next heq =>
      obtain rfl : other = symbol := Expr.nonterminal.inj heq
      rw [Substitution.update_self]
    · next hne =>
      rw [Substitution.update_of_ne h fun heq => hne (congrArg nonterminal heq),
        Substitution.id_apply]
  | seq items ih => rw [replace_seq, subst_seq, List.map_congr_left ih]
  | alt alternatives ih => rw [replace_alt, subst_alt, List.map_congr_left ih]

theorem WellFormed.subst (h : e.WellFormed) (σ : Substitution) : (e.subst σ).WellFormed := by
  induction e with
  | terminal | empty => exact h
  | nonterminal symbol => exact σ.wellFormed symbol
  | seq items ih =>
    rw [subst_seq]
    apply wellFormed_concat
    rw [List.forall_mem_map]
    exact fun item hi => ih item hi ((wellFormed_seq.mp h).2.2 item hi)
  | alt alternatives ih =>
    obtain ⟨two_le, halts⟩ := wellFormed_alt.mp h
    rw [subst_alt]
    apply wellFormed_anyOf
    · exact List.ne_nil_of_length_pos (by rw [List.length_map]; omega)
    · rw [List.forall_mem_map]
      exact fun item hi => ih item hi (halts item hi)

/-- Only the nonterminals that are mentioned matter. -/
theorem subst_congr (h : ∀ symbol ∈ e.nonterminals, σ symbol = τ symbol) :
    e.subst σ = e.subst τ := by
  induction e with
  | terminal | empty => rfl
  | nonterminal symbol => exact h symbol (List.mem_singleton_self symbol)
  | seq items ih =>
    rw [subst_seq, subst_seq, List.map_congr_left fun item hi => ih item hi fun symbol hs =>
      h symbol (mem_nonterminals_seq.mpr ⟨item, hi, hs⟩)]
  | alt alternatives ih =>
    rw [subst_alt, subst_alt, List.map_congr_left fun item hi => ih item hi fun symbol hs =>
      h symbol (mem_nonterminals_alt.mpr ⟨item, hi, hs⟩)]

theorem WellFormed.subst_id (h : e.WellFormed) : e.subst .id = e := by
  induction e with
  | terminal | empty | nonterminal => rfl
  | seq items ih =>
    have hitems := (wellFormed_seq.mp h).2.2
    rw [subst_seq, List.map_congr_left fun item hi => ih item hi (hitems item hi), List.map_id']
    exact h.concat_items
  | alt alternatives ih =>
    obtain ⟨two_le, halts⟩ := wellFormed_alt.mp h
    rw [subst_alt, List.map_congr_left fun item hi => ih item hi (halts item hi), List.map_id']
    exact anyOf_of_two_le two_le

/-- Nothing changes if every nonterminal that is mentioned stands for itself. -/
theorem WellFormed.subst_eq_self (h : e.WellFormed)
    (hself : ∀ symbol ∈ e.nonterminals, σ symbol = .nonterminal symbol) : e.subst σ = e := by
  have hid : e.subst σ = e.subst .id := subst_congr hself
  rw [hid, h.subst_id]

theorem nonterminals_subst (e : Expr) (σ : Substitution) :
    (e.subst σ).nonterminals = e.nonterminals.flatMap fun symbol => (σ symbol).nonterminals := by
  induction e with
  | terminal | empty => rfl
  | nonterminal symbol => exact (List.flatMap_singleton _ _).symm
  | seq _ ih | alt _ ih =>
    simp only [subst_seq, subst_alt, nonterminals_concat, nonterminals_anyOf, nonterminals_seq,
      nonterminals_alt, List.flatMap_map, List.flatMap_assoc]
    exact List.flatMap_congr ih

/-! ## Substituting in concatenations -/

theorem WellFormed.factors_subst (h : e.WellFormed) (σ : Substitution) :
    (e.subst σ).factors = e.factors.flatMap fun f => (f.subst σ).factors := by
  cases h with
  | terminal | nonterminal | alt => exact (List.flatMap_singleton _ _).symm
  | empty => rfl
  | seq two_le isFactor items =>
    rw [subst_seq, factors_concat, List.flatMap_map]
    · rfl
    · rw [List.forall_mem_map]
      exact fun item hi => (items item hi).subst σ

theorem subst_concat (h : ∀ e ∈ es, e.WellFormed) (σ : Substitution) :
    (concat es).subst σ = concat (es.map (subst σ)) := by
  have hfactors : es.flatMap (fun e => e.factors.flatMap fun f => (f.subst σ).factors) =
      es.flatMap fun e => (e.subst σ).factors :=
    List.flatMap_congr fun e he => ((h e he).factors_subst σ).symm
  rw [← ((wellFormed_concat h).subst σ).ofFactors_factors, (wellFormed_concat h).factors_subst,
    factors_concat h, List.flatMap_assoc, hfactors, concat, List.flatMap_map]

theorem subst_anyOf (es : List Expr) (σ : Substitution) :
    (anyOf es).subst σ = anyOf (es.map (subst σ)) := by
  match es with
  | [] => exact subst_alt []
  | [_] => rfl
  | _ :: _ :: _ => exact subst_alt _

/-- One substitution after another, put together symbol by symbol. -/
theorem WellFormed.subst_subst (h : e.WellFormed)
    (hcomp : ∀ symbol ∈ e.nonterminals, (σ symbol).subst τ = υ symbol) :
    (e.subst σ).subst τ = e.subst υ := by
  induction e with
  | terminal | empty => rfl
  | nonterminal symbol => exact hcomp symbol (List.mem_singleton_self symbol)
  | seq items ih =>
    have hitems := (wellFormed_seq.mp h).2.2
    rw [subst_seq, subst_concat, List.map_map, subst_seq]
    · congr 1
      exact List.map_congr_left fun item hi => ih item hi (hitems item hi) fun symbol hs =>
        hcomp symbol (mem_nonterminals_seq.mpr ⟨item, hi, hs⟩)
    · rw [List.forall_mem_map]
      exact fun item hi => (hitems item hi).subst σ
  | alt alternatives ih =>
    have halts := (wellFormed_alt.mp h).2
    rw [subst_alt, subst_anyOf, List.map_map, subst_alt]
    congr 1
    exact List.map_congr_left fun item hi => ih item hi (halts item hi) fun symbol hs =>
      hcomp symbol (mem_nonterminals_alt.mpr ⟨item, hi, hs⟩)

end Expr

end ContextFree
