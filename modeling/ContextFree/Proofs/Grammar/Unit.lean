import ContextFree.Grammar.Unit
import ContextFree.Proofs.Closure
import ContextFree.Proofs.Grammar.Choice

/-!
# Eliminating unit rules

The symbols reached from one through unit rules derive no more than that one does, and they are
closed under unit rules. So a symbol derives the same from the rules that it takes over as it does
by way of its unit rules (`languages_resolveUnit`), and no unit rule is taken over.
-/

namespace ContextFree

theorem Rule.isUnit_iff {rule : Rule} : rule.isUnit ↔ ∃ target, rule.rhs = .nonterminal target := by
  simp [isUnit, Option.isSome_iff_exists]

namespace Grammar

variable {g : Grammar} {symbol source target : Nonterminal} {rule : Rule}

/-! ## Reaching symbols through unit rules -/

theorem mem_unitReachable_self : symbol ∈ g.unitReachable symbol :=
  Step.subset_closure (List.mem_singleton_self symbol)

theorem mem_unitReachable_of_unit (hs : source ∈ g.unitReachable symbol)
    (hr : ⟨source, .nonterminal target⟩ ∈ g.rules) : target ∈ g.unitReachable symbol := by
  refine g.unitStep.successors_subset_closure (fun _ _ => rfl) hs ?_
  exact List.mem_filterMap.mpr ⟨_, mem_rulesFor.mpr ⟨hr, rfl⟩, rfl⟩

/-- What a unit step hands on is handed on to everything that is reached. -/
theorem unitReachable_induction {p : Nonterminal → Prop} (start : p symbol)
    (hand : ∀ source target, p source → ⟨source, .nonterminal target⟩ ∈ g.rules → p target) :
    ∀ source ∈ g.unitReachable symbol, p source := by
  refine g.unitStep.closure_induction (by simpa) fun known frontier hsub hp target ht => ?_
  obtain ⟨source, hs, ht⟩ := List.mem_flatMap.mp ht
  obtain ⟨⟨lhs, rhs⟩, hfor, hrhs⟩ := List.mem_filterMap.mp ht
  obtain ⟨hr, rfl⟩ := mem_rulesFor.mp hfor
  obtain rfl := Expr.nonterminal?_eq_some_iff.mp hrhs
  exact hand lhs target (hp _ (hsub hs)) hr

theorem mem_unitReachable_trans (hs : source ∈ g.unitReachable target)
    (ht : target ∈ g.unitReachable symbol) : source ∈ g.unitReachable symbol :=
  unitReachable_induction ht (fun _ _ => mem_unitReachable_of_unit) source hs

theorem languages_le_of_mem_unitReachable (hs : source ∈ g.unitReachable symbol) :
    g.languages source ≤ g.languages symbol :=
  unitReachable_induction (p := fun s => g.languages s ≤ g.languages symbol) le_rfl
    (fun _ _ hle hr => (holds_languages hr).trans hle) source hs

/-! ## Taking over rules -/

/-- A rule is left alone unless it is a unit rule; in place of a unit rule there are the other rules
of the symbols that are reached from its right-hand side. -/
theorem mem_resolveUnit {r : Rule} : r ∈ g.resolveUnit rule ↔
    ¬rule.isUnit ∧ r = rule ∨
      ∃ target, rule.rhs = .nonterminal target ∧ target ≠ rule.lhs ∧
        ∃ source ∈ g.unitReachable target, ∃ e, ⟨source, e⟩ ∈ g.rules ∧
          ¬(⟨source, e⟩ : Rule).isUnit ∧ r = ⟨rule.lhs, e⟩ := by
  rw [resolveUnit]
  cases hrhs : rule.rhs with
  | nonterminal target =>
    by_cases hself : target = rule.lhs
    · simp [Rule.isSelfLoop, hrhs, hself, Rule.isUnit, Expr.nonterminal?]
    · simp only [Rule.isSelfLoop, hrhs, Expr.nonterminal.injEq, hself, decide_false,
        Bool.false_eq_true, if_false, Expr.nonterminal?, List.mem_flatMap, List.mem_map,
        List.mem_filter, mem_rulesFor, Bool.not_eq_true', Rule.isUnit, Option.isSome_some,
        not_true_eq_false, false_and, false_or, exists_eq_left', ne_eq, not_false_eq_true,
        true_and, Bool.not_eq_true]
      constructor
      · intro h
        obtain ⟨source, hs, ⟨lhs, e⟩, ⟨⟨hr, rfl⟩, hunit⟩, rfl⟩ := h
        exact ⟨lhs, hs, e, hr, hunit, rfl⟩
      · intro h
        obtain ⟨source, hs, e, hr, hunit, rfl⟩ := h
        exact ⟨source, hs, ⟨source, e⟩, ⟨⟨hr, rfl⟩, hunit⟩, rfl⟩
  | terminal | empty | seq | alt =>
    simp [Rule.isSelfLoop, hrhs, Rule.isUnit, Expr.nonterminal?]

/-- Whatever a rule gives way to can also be had by a symbol with a unit rule for its left-hand
side. -/
theorem mem_flatMap_resolveUnit_of_unit {e : Expr}
    (hr : ⟨symbol, .nonterminal target⟩ ∈ g.rules) (hne : target ≠ symbol)
    (he : ⟨target, e⟩ ∈ g.rules.flatMap g.resolveUnit) :
    ⟨symbol, e⟩ ∈ g.rules.flatMap g.resolveUnit := by
  obtain ⟨⟨lhs, rhs⟩, hrule, he⟩ := List.mem_flatMap.mp he
  refine List.mem_flatMap.mpr ⟨_, hr, mem_resolveUnit.mpr (.inr ⟨target, rfl, hne, ?_⟩)⟩
  rcases mem_resolveUnit.mp he with ⟨hunit, heq⟩ | ⟨next, hrhs, -, source, hs, e', hr', hunit, heq⟩
  · obtain ⟨rfl, rfl⟩ := Rule.mk.inj heq
    exact ⟨target, mem_unitReachable_self, e, hrule, hunit, rfl⟩
  · obtain ⟨rfl, rfl⟩ := Rule.mk.inj heq
    obtain rfl : rhs = .nonterminal next := hrhs
    have hnext := mem_unitReachable_of_unit mem_unitReachable_self hrule
    exact ⟨source, mem_unitReachable_trans hs hnext, e, hr', hunit, rfl⟩

theorem languages_resolveUnit
    (wellFormed : ∀ rule ∈ g.rules.flatMap g.resolveUnit, rule.rhs.WellFormed) :
    (ofRules (g.rules.flatMap g.resolveUnit) wellFormed).languages = g.languages := by
  refine funext fun symbol =>
    le_antisymm (languages_ofRules_le wellFormed ?_ symbol) (languages_le ?_ symbol)
  · intro r hr
    obtain ⟨rule, hrule, hr⟩ := List.mem_flatMap.mp hr
    rcases mem_resolveUnit.mp hr with ⟨-, rfl⟩ | ⟨target, hrhs, -, source, hs, e, he, -, rfl⟩
    · exact holds_languages hrule
    · have hrule : g.languages target ≤ g.languages rule.lhs := by
        have := holds_languages hrule
        rwa [Rule.Holds, hrhs] at this
      exact ((holds_languages he).trans (languages_le_of_mem_unitReachable hs)).trans hrule
  · rintro ⟨lhs, rhs⟩ hrule
    by_cases hunit : (⟨lhs, rhs⟩ : Rule).isUnit
    · obtain ⟨target, rfl⟩ := Rule.isUnit_iff.mp hunit
      intro w hw
      by_cases hne : target = lhs
      · exact hne ▸ hw
      obtain ⟨⟨_, e⟩, hr, rfl, he⟩ := mem_languages_iff.mp hw
      have hmem := mem_flatMap_resolveUnit_of_unit hrule hne (mem_ofRules.mp hr)
      exact mem_languages_iff.mpr ⟨_, mem_ofRules.mpr hmem, rfl, he⟩
    · apply holds_ofRules wellFormed
      exact List.mem_flatMap.mpr ⟨_, hrule, mem_resolveUnit.mpr (.inl ⟨hunit, rfl⟩)⟩

theorem preserves_eliminateUnits : g.eliminateUnits.Preserves g :=
  (preserves_rooted _ (fun h => by simp [h]) fun _ _ => by rw [languages_resolveUnit]).trans
    preserves_splitAlternatives

/-- The rules without unit rules are left alone or have the right-hand side of another rule that is
reached through unit rules. -/
theorem exists_of_mem_eliminateUnits (hr : rule ∈ g.eliminateUnits.rules) :
    ¬rule.isUnit ∧ ∃ source, ⟨source, rule.rhs⟩ ∈ g.splitAlternatives.rules ∧
      (source = rule.lhs ∨ ∃ r ∈ g.splitAlternatives.rules, source ∈ r.rhs.nonterminals) := by
  obtain ⟨origin, horigin, hr⟩ := List.mem_flatMap.mp (rooted_rules_subset _ hr)
  rcases mem_resolveUnit.mp hr with ⟨hunit, rfl⟩ | ⟨target, hrhs, -, source, hs, e, he, hunit, rfl⟩
  · exact ⟨hunit, rule.lhs, horigin, .inl rfl⟩
  · refine ⟨hunit, source, he, .inr ?_⟩
    refine unitReachable_induction
      (p := fun s => ∃ r ∈ g.splitAlternatives.rules, s ∈ r.rhs.nonterminals)
      ?_ (fun s t _ ht => ?_) source hs
    · exact ⟨origin, horigin, by simp [hrhs, Expr.mem_nonterminals]⟩
    · exact ⟨_, ht, by simp [Expr.mem_nonterminals]⟩

theorem eliminateUnits_isChoiceFree : g.eliminateUnits.IsChoiceFree := by
  intro rule hr
  obtain ⟨-, source, he, -⟩ := exists_of_mem_eliminateUnits hr
  exact splitAlternatives_isChoiceFree ⟨source, rule.rhs⟩ he

end Grammar

end ContextFree
