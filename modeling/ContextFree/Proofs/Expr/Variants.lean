import ContextFree.Grammar.Nullable
import ContextFree.Proofs.Expr.Denotation

/-!
# Leaving out optional items

A variant of a list of items has primed symbols for some of the optional items and leaves out the
others. Whatever the masks of a machine make of the items is a variant
(`isVariant_of_mem_variants`). Every variant is made by some mask, provided that words have a bit
for each of the optional items (`mem_variants_iff`, `variants_eq`).
-/

namespace ContextFree

namespace Expr

variable {a : Arithmetic} {primes : List (Nonterminal × Nonterminal)} {items variant : List Expr}
  {I J : Valuation} {mask index : Nat}

theorem primeFor_eq_some_iff {item : Expr} {primed : Nonterminal} :
    primeFor primes item = some primed ↔
      ∃ symbol, item = .nonterminal symbol ∧ primes.lookup symbol = some primed := by
  simp [primeFor, Option.bind_eq_some_iff]

theorem optionalCount_cons {item : Expr} : optionalCount primes (item :: items) =
    optionalCount primes items + if (primeFor primes item).isSome then 1 else 0 :=
  List.countP_cons ..

/-- That a list has the items, some of the optional ones left out and the others primed. -/
inductive IsVariant (primes : List (Nonterminal × Nonterminal)) : List Expr → List Expr → Prop where
  | nil : IsVariant primes [] []
  | required {item : Expr} {items variant : List Expr} (not_optional : primeFor primes item = none)
      (rest : IsVariant primes items variant) : IsVariant primes (item :: items) (item :: variant)
  | kept {item : Expr} {primed : Nonterminal} {items variant : List Expr}
      (optional : primeFor primes item = some primed) (rest : IsVariant primes items variant) :
      IsVariant primes (item :: items) (.nonterminal primed :: variant)
  | leftOut {item : Expr} {primed : Nonterminal} {items variant : List Expr}
      (optional : primeFor primes item = some primed) (rest : IsVariant primes items variant) :
      IsVariant primes (item :: items) variant

/-! ## Masks -/

theorem isVariant_keep : IsVariant primes items (keep a primes mask index items) := by
  induction items generalizing index with
  | nil => exact .nil
  | cons item items ih =>
    rw [keep]
    split
    · next primed hprime =>
      split
      · exact .leftOut hprime ih
      · exact .kept hprime ih
    · next hprime => exact .required hprime ih

theorem isVariant_of_mem_variants (h : variant ∈ variants a primes items) :
    IsVariant primes items variant := by
  obtain ⟨mask, -, rfl⟩ := List.mem_map.mp h
  exact isVariant_keep

/-- Without the lowest bit of a mask, the others move up by one place. -/
theorem keep_succ : keep .unbounded primes mask (index + 1) items =
    keep .unbounded primes (mask / 2) index items := by
  induction items generalizing index with
  | nil => rfl
  | cons item items ih =>
    have hbit : mask.testBit (Arithmetic.unbounded.shift (index + 1)) =
        (mask / 2).testBit (Arithmetic.unbounded.shift index) := Nat.testBit_succ mask index
    rw [keep, keep, ih, ih, hbit]

/-- The bits of the mask tell, from the lowest to the highest, whether an item is left out. -/
theorem exists_keep_eq (h : IsVariant primes items variant) :
    ∃ mask < 2 ^ optionalCount primes items, keep .unbounded primes mask 0 items = variant := by
  induction h with
  | nil => exact ⟨0, Nat.one_pos, rfl⟩
  | required hnone _ ih =>
    obtain ⟨mask, hlt, rfl⟩ := ih
    refine ⟨mask, ?_, by rw [keep, hnone]⟩
    rwa [optionalCount_cons, hnone]
  | kept hsome _ ih =>
    obtain ⟨mask, hlt, rfl⟩ := ih
    refine ⟨2 * mask, ?_, ?_⟩
    · rw [optionalCount_cons, hsome, Option.isSome_some, if_pos rfl, Nat.pow_succ]
      omega
    · have hbit : (2 * mask).testBit (Arithmetic.unbounded.shift 0) = false := by
        simp [Arithmetic.shift_zero]
      simp only [keep, hsome, hbit, keep_succ, Nat.mul_div_cancel_left mask Nat.two_pos,
        Bool.false_eq_true, if_false]
  | leftOut hsome _ ih =>
    obtain ⟨mask, hlt, rfl⟩ := ih
    refine ⟨2 * mask + 1, ?_, ?_⟩
    · rw [optionalCount_cons, hsome, Option.isSome_some, if_pos rfl, Nat.pow_succ]
      omega
    · have hbit : (2 * mask + 1).testBit (Arithmetic.unbounded.shift 0) = true := by
        simp [Arithmetic.shift_zero]
      have hhalf : (2 * mask + 1) / 2 = mask := by omega
      simp only [keep, hsome, hbit, keep_succ, hhalf, if_true]

theorem mem_variants_iff :
    variant ∈ variants .unbounded primes items ↔ IsVariant primes items variant := by
  refine ⟨isVariant_of_mem_variants, fun h => ?_⟩
  obtain ⟨mask, hlt, rfl⟩ := exists_keep_eq h
  rw [← Nat.one_shiftLeft] at hlt
  exact List.mem_map_of_mem (List.mem_range.mpr hlt)

theorem keep_eq (h : a.HasBit (index + optionalCount primes items)) :
    keep a primes mask index items = keep .unbounded primes mask index items := by
  induction items generalizing index with
  | nil => rfl
  | cons item items ih =>
    rw [optionalCount_cons] at h
    cases hprime : primeFor primes item with
    | none =>
      rw [hprime] at h
      simp only [keep, hprime, ih h]
    | some primed =>
      have hrest : a.HasBit (index + 1 + optionalCount primes items) := by
        rw [hprime, Option.isSome_some, if_pos rfl] at h
        rwa [Nat.add_right_comm]
      have hindex : a.shift index = Arithmetic.unbounded.shift index :=
        Arithmetic.shift_eq (h.mono (Nat.le_add_right ..))
      simp only [keep, hprime, ih hrest, hindex]

/-- Masks of a machine make all the variants, as long as words have enough bits. -/
theorem variants_eq (h : a.HasBit (optionalCount primes items)) :
    variants a primes items = variants .unbounded primes items := by
  have hkeep (mask : Nat) : keep a primes mask 0 items = keep .unbounded primes mask 0 items :=
    keep_eq (by rwa [Nat.zero_add])
  have hshift : a.shift (optionalCount primes items) =
      Arithmetic.unbounded.shift (optionalCount primes items) := Arithmetic.shift_eq h
  simp only [variants, hkeep, hshift]

/-! ## What variants denote -/

/-- A variant denotes no more than the items if a primed symbol denotes no more than the plain one,
and the plain one may be left out. -/
theorem IsVariant.prod_denote_le (h : IsVariant primes items variant)
    (hitems : ∀ item ∈ items, item.denote spell J ≤ item.denote spell I)
    (hprimes : ∀ symbol primed, primes.lookup symbol = some primed →
      J primed ≤ I symbol ∧ [] ∈ I symbol) :
    (variant.map (denote spell J)).prod ≤ (items.map (denote spell I)).prod := by
  induction h with
  | nil => exact le_rfl
  | required _ _ ih =>
    obtain ⟨hitem, hrest⟩ := List.forall_mem_cons.mp hitems
    simp only [List.map_cons, List.prod_cons]
    exact mul_le_mul' hitem (ih hrest)
  | kept hsome _ ih =>
    obtain ⟨symbol, rfl, hlookup⟩ := primeFor_eq_some_iff.mp hsome
    obtain ⟨-, hrest⟩ := List.forall_mem_cons.mp hitems
    simp only [List.map_cons, List.prod_cons]
    exact mul_le_mul' (hprimes symbol _ hlookup).1 (ih hrest)
  | leftOut hsome _ ih =>
    obtain ⟨symbol, rfl, hlookup⟩ := primeFor_eq_some_iff.mp hsome
    obtain ⟨-, hrest⟩ := List.forall_mem_cons.mp hitems
    rw [List.map_cons, List.prod_cons]
    exact fun w hw => Language.append_mem_mul (hprimes symbol _ hlookup).2 (ih hrest hw)

/-- Whatever the items denote, some variant denotes by leaving out what contributes nothing. -/
theorem exists_isVariant {w : List Token}
    (hitems : ∀ item ∈ items, item.denote spell I ≤ item.denote spell J)
    (hprimes : ∀ symbol primed, primes.lookup symbol = some primed →
      ∀ u ∈ I symbol, u ≠ [] → u ∈ J primed)
    (h : w ∈ (items.map (denote spell I)).prod) :
    ∃ variant, IsVariant primes items variant ∧ w ∈ (variant.map (denote spell J)).prod := by
  induction items generalizing w with
  | nil => exact ⟨[], .nil, h⟩
  | cons item items ih =>
    obtain ⟨hitem, hrest⟩ := List.forall_mem_cons.mp hitems
    obtain ⟨u, hu, v, hv, rfl⟩ := Language.mem_mul.mp h
    obtain ⟨rest, hvariant, hv⟩ := ih hrest hv
    cases hprime : primeFor primes item with
    | none =>
      exact ⟨item :: rest, .required hprime hvariant, Language.append_mem_mul (hitem hu) hv⟩
    | some primed =>
      by_cases hnil : u = []
      · exact ⟨rest, .leftOut hprime hvariant, by rwa [hnil]⟩
      · obtain ⟨symbol, rfl, hlookup⟩ := primeFor_eq_some_iff.mp hprime
        exact ⟨.nonterminal primed :: rest, .kept hprime hvariant,
          Language.append_mem_mul (hprimes symbol primed hlookup u hu hnil) hv⟩

/-! ## The items of a variant -/

/-- The items of a variant are primed symbols and items without a primed symbol. -/
theorem IsVariant.eq_prime_or (h : IsVariant primes items variant) {item : Expr}
    (hi : item ∈ variant) :
    (∃ symbol primed, primes.lookup symbol = some primed ∧ item = .nonterminal primed) ∨
      item ∈ items ∧ primeFor primes item = none := by
  induction h with
  | nil => simp at hi
  | required hnone _ ih =>
    rcases List.mem_cons.mp hi with rfl | hi
    · exact .inr ⟨List.mem_cons_self, hnone⟩
    · exact (ih hi).imp_right (And.imp_left (List.mem_cons_of_mem _))
  | kept hsome _ ih =>
    rcases List.mem_cons.mp hi with rfl | hi
    · obtain ⟨symbol, -, hlookup⟩ := primeFor_eq_some_iff.mp hsome
      exact .inl ⟨symbol, _, hlookup, rfl⟩
    · exact (ih hi).imp_right (And.imp_left (List.mem_cons_of_mem _))
  | leftOut _ _ ih => exact (ih hi).imp_right (And.imp_left (List.mem_cons_of_mem _))

/-- The items that are not optional. -/
def required (primes : List (Nonterminal × Nonterminal)) (items : List Expr) : List Expr :=
  items.filter fun item => (primeFor primes item).isNone

theorem mem_required {item : Expr} :
    item ∈ required primes items ↔ item ∈ items ∧ primeFor primes item = none := by
  simp [required]

/-- All optional items may be left out at once. -/
theorem isVariant_required : IsVariant primes items (required primes items) := by
  induction items with
  | nil => exact .nil
  | cons item items ih =>
    cases hprime : primeFor primes item with
    | none =>
      rw [required, List.filter_cons_of_pos (by simp [hprime])]
      exact .required hprime ih
    | some primed =>
      rw [required, List.filter_cons_of_neg (by simp [hprime])]
      exact .leftOut hprime ih

end Expr

end ContextFree
