import ContextFree.Expr.WellFormed

/-!
# Right-hand sides without choices

A well-formed expression without choices at any depth is an atom or a sequence of atoms other than
the empty string.
-/

namespace ContextFree

namespace Expr

/-- Whether there is no choice at any depth. -/
def isChoiceFree : Expr → Bool :=
  fold (fun _ => true) (fun items => items.all id) fun _ => false

@[simp] theorem isChoiceFree_terminal (token : Token) : (terminal token).isChoiceFree := rfl

@[simp] theorem isChoiceFree_nonterminal (symbol : Nonterminal) :
    (nonterminal symbol).isChoiceFree := rfl

@[simp] theorem isChoiceFree_empty : empty.isChoiceFree := rfl

@[simp] theorem isChoiceFree_seq (items : List Expr) :
    (seq items).isChoiceFree = items.all isChoiceFree := by
  rw [isChoiceFree, fold_seq, List.all_map]
  rfl

@[simp] theorem isChoiceFree_alt (alternatives : List Expr) :
    (alt alternatives).isChoiceFree = false :=
  fold_alt alternatives

theorem isChoiceFree_ofFactors {es : List Expr} (h : ∀ e ∈ es, e.isChoiceFree) :
    (ofFactors es).isChoiceFree := by
  match es with
  | [] => rfl
  | [e] => exact h e (by simp)
  | _ :: _ :: _ => simpa [ofFactors] using h

theorem isChoiceFree_of_mem_factors {e f : Expr} (h : e.isChoiceFree) (hf : f ∈ e.factors) :
    f.isChoiceFree := by
  cases e with
  | seq items => exact List.all_eq_true.mp (isChoiceFree_seq items ▸ h) f hf
  | empty => simp [factors] at hf
  | terminal | nonterminal | alt =>
    rw [List.mem_singleton.mp hf]
    exact h

theorem isChoiceFree_concat {es : List Expr} (h : ∀ e ∈ es, e.isChoiceFree) :
    (concat es).isChoiceFree := by
  refine isChoiceFree_ofFactors fun f hf => ?_
  obtain ⟨e, he, hf⟩ := List.mem_flatMap.mp hf
  exact isChoiceFree_of_mem_factors (h e he) hf

theorem isAtom_of_isFactor {e : Expr} (h : e.isFactor) (hfree : e.isChoiceFree) : e.isAtom := by
  cases e with
  | terminal | nonterminal => rfl
  | empty | seq => simp [isFactor] at h
  | alt => simp at hfree

theorem WellFormed.isAtom_of_mem_items {e item : Expr} (h : e.WellFormed) (hfree : e.isChoiceFree)
    (hi : item ∈ e.items) : item.isAtom := by
  cases h with
  | terminal | nonterminal | empty => rw [List.mem_singleton.mp hi]; rfl
  | seq _ hfactor _ =>
    exact isAtom_of_isFactor (hfactor item hi)
      (List.all_eq_true.mp (isChoiceFree_seq _ ▸ hfree) item hi)
  | alt => simp at hfree

theorem WellFormed.items_ne_nil {e : Expr} (h : e.WellFormed) : e.items ≠ [] := by
  cases h with
  | terminal | nonterminal | empty | alt => simp [items]
  | seq two_le _ _ =>
    rintro rfl
    simp at two_le

/-- A well-formed expression is made of its items. -/
theorem WellFormed.ofFactors_items {e : Expr} (h : e.WellFormed) : ofFactors e.items = e := by
  cases h with
  | terminal | nonterminal | empty | alt => rfl
  | @seq items two_le _ _ =>
    match items, two_le with
    | _ :: _ :: _, _ => rfl

theorem WellFormed.concat_items {e : Expr} (h : e.WellFormed) : concat e.items = e := by
  cases h with
  | terminal | nonterminal | empty | alt => rfl
  | @seq items two_le hfactor hitems =>
    have hflat : items.flatMap factors = items := by
      rw [List.flatMap_def, List.map_congr_left (g := fun e => [e]), ← List.flatMap_def]
      · simp
      · intro e he
        have := hfactor e he
        cases e <;> simp_all [factors, isFactor]
    rw [concat, Expr.items, hflat]
    exact (WellFormed.seq two_le hfactor hitems).ofFactors_items

end Expr

end ContextFree
