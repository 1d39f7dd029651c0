import ContextFree.Proofs.Grammar.Language

/-!
# The rules of the start symbol first

Transformations put the rules of the start symbol in front of all others and keep the order of the
rules apart from that. The grammar that they are put into has just these rules if the start symbol
has one among them.
-/

namespace ContextFree

namespace Rule

/-- The rules in order, but those of the start symbol before all others. -/
def startFirst (start? : Option Nonterminal) (rules : List Rule) : List Rule :=
  rules.filter (fun rule => decide (start? = some rule.lhs)) ++
    rules.filter fun rule => !decide (start? = some rule.lhs)

variable {start? : Option Nonterminal} {rules : List Rule} {rule : Rule}

theorem startFirst_perm : (startFirst start? rules).Perm rules :=
  List.filter_append_perm _ rules

theorem startFirst_startFirst :
    startFirst start? (startFirst start? rules) = startFirst start? rules := by
  simp [startFirst, List.filter_filter]

@[simp] theorem mem_startFirst : rule ∈ startFirst start? rules ↔ rule ∈ rules :=
  startFirst_perm.mem_iff

theorem startFirst_filter (p : Rule → Bool) :
    startFirst start? (rules.filter p) = (startFirst start? rules).filter p := by
  simp only [startFirst, List.filter_append, List.filter_filter, Bool.and_comm]

/-- The order only depends on the left-hand sides. -/
theorem startFirst_map {f : Rule → Rule} (h : ∀ rule, (f rule).lhs = rule.lhs) :
    startFirst start? (rules.map f) = (startFirst start? rules).map f := by
  simp only [startFirst, List.filter_map, List.map_append, Function.comp_def, h]

end Rule

namespace Grammar

variable {start? : Option Nonterminal} {rules : List Rule} {rule : Rule}
  (wellFormed : ∀ rule ∈ rules, rule.rhs.WellFormed)

section

variable (hstart : ∀ start, start? = some start → ∃ rule ∈ rules, rule.lhs = start)

include hstart

theorem rules_rooted :
    (rooted start? rules wellFormed).rules = (Rule.startFirst start? rules).eraseDups := by
  cases start? with
  | none => simp [rooted, Rule.startFirst]
  | some start =>
    have hany : rules.any fun rule => decide (rule.lhs = start) := by
      simpa using hstart start rfl
    rw [rooted, if_pos hany, rules_ofRules]
    simp only [Rule.startFirst, Option.some.injEq, eq_comm]

theorem mem_rooted_iff : rule ∈ (rooted start? rules wellFormed).rules ↔ rule ∈ rules := by
  rw [rules_rooted wellFormed hstart, List.mem_eraseDups, Rule.mem_startFirst]

theorem start?_rooted (h : start? = none → rules = []) :
    (rooted start? rules wellFormed).start? = start? := by
  cases start? with
  | none => simp [rooted, h rfl, start?]
  | some start => exact (rooted_of_exists wellFormed (hstart start rfl)).2

end

/-- The grammar with the rules of its start symbol in front. -/
def startRulesFirst (g : Grammar) : Grammar :=
  rooted g.start? g.rules g.wellFormed

section

variable {g : Grammar}

theorem rules_startRulesFirst : g.startRulesFirst.rules = Rule.startFirst g.start? g.rules := by
  rw [startRulesFirst, rules_rooted g.wellFormed fun start => exists_rule_of_start?]
  exact eraseDups_eq_self (Rule.startFirst_perm.nodup_iff.mpr g.nodup)

theorem sameRules_startRulesFirst : g.startRulesFirst.SameRules g := by
  intro rule
  rw [rules_startRulesFirst, Rule.mem_startFirst]

theorem start?_startRulesFirst : g.startRulesFirst.start? = g.start? :=
  start?_rooted g.wellFormed (fun _ => exists_rule_of_start?) start?_eq_none_iff.mp

end

/-- In any case no rule is added and the order is the same. -/
theorem rules_rooted_sublist :
    (rooted start? rules wellFormed).rules.Sublist (Rule.startFirst start? rules) := by
  by_cases hstart : ∀ start, start? = some start → ∃ rule ∈ rules, rule.lhs = start
  · rw [rules_rooted wellFormed hstart]
    exact eraseDups_sublist _
  · push Not at hstart
    obtain ⟨start, rfl, hnone⟩ := hstart
    rw [rooted_of_not_exists wellFormed (by simpa using hnone)]
    exact List.nil_sublist _

end Grammar

end ContextFree
