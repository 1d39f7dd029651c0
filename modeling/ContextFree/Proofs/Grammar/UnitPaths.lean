import ContextFree.Proofs.Grammar.Idempotent
import ContextFree.Proofs.Grammar.StartFirst

/-!
# Ways through unit rules

A symbol reaches another one when unit rules lead from the first to the second. The closure by which
unit rules are eliminated finds every such way (`mem_unitReachable_iff`), and a symbol takes over
just the other rules of all that it reaches (`mem_flatMap_resolveUnit_iff`). Loops at a symbol may
be skipped for that, as a way can always leave out its loops. The start symbol is lost if it reaches
no rule that could be taken over (`eliminateUnits_spec`).
-/

namespace ContextFree

namespace Grammar

variable {g : Grammar} {symbol source : Nonterminal} {e : Expr}

/-- There is a unit rule for `symbol` with `target` on its right-hand side. -/
def UnitRule (g : Grammar) (symbol target : Nonterminal) : Prop :=
  ⟨symbol, .nonterminal target⟩ ∈ g.rules

/-- Zero or more unit rules lead from one symbol to another. -/
def UnitReaches (g : Grammar) : Nonterminal → Nonterminal → Prop :=
  Relation.ReflTransGen g.UnitRule

theorem mem_unitReachable_iff : source ∈ g.unitReachable symbol ↔ g.UnitReaches symbol source := by
  constructor
  · intro hs
    exact unitReachable_induction .refl (fun _ _ hway hr => hway.tail hr) source hs
  · intro hway
    induction hway with
    | refl => exact mem_unitReachable_self
    | tail _ hr ih => exact mem_unitReachable_of_unit ih hr

/-- A symbol has the rules that it reaches, except for unit rules. -/
theorem mem_flatMap_resolveUnit_iff : ⟨symbol, e⟩ ∈ g.rules.flatMap g.resolveUnit ↔
    e.nonterminal? = none ∧ ∃ source, g.UnitReaches symbol source ∧ ⟨source, e⟩ ∈ g.rules := by
  constructor
  · intro h
    obtain ⟨⟨lhs, rhs⟩, hrule, h⟩ := List.mem_flatMap.mp h
    rcases mem_resolveUnit.mp h with
      ⟨hunit, heq⟩ | ⟨target, hrhs, -, source, hs, e', he, hunit, heq⟩
    · obtain ⟨rfl, rfl⟩ := Rule.mk.inj heq
      exact ⟨by simpa [Rule.isUnit] using hunit, symbol, .refl, hrule⟩
    · obtain ⟨rfl, rfl⟩ := Rule.mk.inj heq
      obtain rfl : rhs = .nonterminal target := hrhs
      exact ⟨by simpa [Rule.isUnit] using hunit, source,
        (mem_unitReachable_iff.mp hs).head hrule, he⟩
  · intro h
    obtain ⟨hnone, source, hway, he⟩ := h
    induction hway using Relation.ReflTransGen.head_induction_on with
    | refl =>
      have hunit : ¬(⟨source, e⟩ : Rule).isUnit := by simp [Rule.isUnit, hnone]
      exact List.mem_flatMap.mpr ⟨_, he, mem_resolveUnit.mpr (.inl ⟨hunit, rfl⟩)⟩
    | @head symbol target hr _ ih =>
      by_cases hne : target = symbol
      · exact hne ▸ ih
      · exact mem_flatMap_resolveUnit_of_unit hr hne ih

/-- The start symbol reaches a rule other than a unit rule. -/
def StartReachesRule (g : Grammar) : Prop :=
  ∃ start, g.start? = some start ∧
    ∃ source, g.UnitReaches start source ∧ ∃ rule ∈ g.rules, rule.lhs = source ∧ ¬rule.isUnit

theorem exists_mem_of_startReachesRule (h : g.StartReachesRule) {start : Nonterminal}
    (hstart : g.start? = some start) :
    ∃ rule ∈ g.rules.flatMap g.resolveUnit, rule.lhs = start := by
  obtain ⟨first, hfirst, source, hway, ⟨lhs, e⟩, hr, rfl, hunit⟩ := h
  obtain rfl : first = start := Option.some.inj (hfirst.symm.trans hstart)
  refine ⟨⟨first, e⟩, mem_flatMap_resolveUnit_iff.mpr ⟨?_, lhs, hway, hr⟩, rfl⟩
  simpa [Rule.isUnit] using hunit

theorem mem_eliminateUnits_iff (h : g.splitAlternatives.StartReachesRule) :
    ⟨symbol, e⟩ ∈ g.eliminateUnits.rules ↔ e.nonterminal? = none ∧
      ∃ source, g.splitAlternatives.UnitReaches symbol source ∧
        ⟨source, e⟩ ∈ g.splitAlternatives.rules := by
  rw [← mem_flatMap_resolveUnit_iff]
  exact mem_rooted_iff _ fun _ => exists_mem_of_startReachesRule h

theorem start?_eliminateUnits (h : g.splitAlternatives.StartReachesRule) :
    g.eliminateUnits.start? = g.splitAlternatives.start? := by
  apply start?_rooted _ fun _ => exists_mem_of_startReachesRule h
  intro hnone
  simp [start?_eq_none_iff.mp hnone]

theorem languages_eliminateUnits (h : g.splitAlternatives.StartReachesRule) :
    g.eliminateUnits.languages = g.splitAlternatives.languages := by
  have hwf : ∀ rule ∈ g.splitAlternatives.rules.flatMap g.splitAlternatives.resolveUnit,
      rule.rhs.WellFormed :=
    fun r hr => (List.mem_flatMap.mp hr).elim fun _ h => wellFormed_of_mem_resolveUnit h.1 r h.2
  rw [← languages_resolveUnit hwf]
  apply languages_congr
  intro rule
  rw [mem_ofRules]
  exact mem_rooted_iff hwf fun _ => exists_mem_of_startReachesRule h

theorem eliminateUnits_eq_empty (h : ¬g.splitAlternatives.StartReachesRule) :
    g.eliminateUnits = empty := by
  simp only [eliminateUnits]
  cases hstart : g.splitAlternatives.start? with
  | none =>
    apply ext
    simp [rooted, start?_eq_none_iff.mp hstart]
  | some start =>
    apply rooted_of_not_exists
    intro hs
    obtain ⟨⟨lhs, e⟩, hr, rfl⟩ := hs
    obtain ⟨hnone, source, hway, he⟩ := mem_flatMap_resolveUnit_iff.mp hr
    exact h ⟨_, hstart, source, hway, _, he, rfl, by simp [Rule.isUnit, hnone]⟩

/-- Eliminating unit rules. If unit rules lead from the start symbol to another rule at all, each
symbol gets just the other rules that unit rules lead to, the rules of the start symbol stand first,
and every symbol derives what it did. If not, nothing is generated and nothing is left. -/
theorem eliminateUnits_spec (g : Grammar) :
    (g.splitAlternatives.StartReachesRule →
      (∀ symbol e, ⟨symbol, e⟩ ∈ g.eliminateUnits.rules ↔ e.nonterminal? = none ∧
        ∃ source, g.splitAlternatives.UnitReaches symbol source ∧
          ⟨source, e⟩ ∈ g.splitAlternatives.rules) ∧
      g.eliminateUnits.start? = g.splitAlternatives.start? ∧ g.eliminateUnits.IsRooted ∧
      ∀ symbol w, g.eliminateUnits.Derives (.nonterminal symbol) w ↔
        g.splitAlternatives.Derives (.nonterminal symbol) w) ∧
    (¬g.splitAlternatives.StartReachesRule →
      g.eliminateUnits = empty ∧ ∀ w, ¬g.Generates w) ∧
    ∀ rule ∈ g.eliminateUnits.rules, ¬rule.isUnit := by
  refine ⟨fun h => ?_, fun h => ?_, fun rule hr => (exists_of_mem_eliminateUnits hr).1⟩
  · refine ⟨fun _ _ => mem_eliminateUnits_iff h, start?_eliminateUnits h, isRooted_eliminateUnits,
      fun symbol w => ?_⟩
    rw [← mem_languages, ← mem_languages, languages_eliminateUnits h]
  · have hempty := eliminateUnits_eq_empty h
    refine ⟨hempty, fun w hw => ?_⟩
    have hgenerates := (preserves_eliminateUnits (g := g)).generated hw
    rw [hempty] at hgenerates
    exact not_generates_of_rules_eq_nil rules_empty w hgenerates

end Grammar

end ContextFree
