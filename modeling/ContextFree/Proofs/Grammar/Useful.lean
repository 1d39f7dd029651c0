import ContextFree.Grammar.Useful
import ContextFree.Proofs.Closure
import ContextFree.Proofs.Grammar.Choice

/-!
# Leaving out useless rules

Leaving out rules never adds to what is derived. Rules of unreachable symbols can always be left
out. Unproductive rules can be left out when there are no choices: then every nonterminal of a
right-hand side takes part in what it derives, while one alternative of a choice may do without the
nonterminals of another.
-/

namespace ContextFree

theorem exists_mem_of_mem_list_prod {α : Type} {ls : List (Language α)} {w : List α}
    (h : w ∈ ls.prod) : ∀ l ∈ ls, ∃ u, u ∈ l := by
  induction ls generalizing w with
  | nil => simp
  | cons l ls ih =>
    obtain ⟨u, hu, v, hv, -⟩ := Language.mem_mul.mp h
    exact List.forall_mem_cons.mpr ⟨⟨u, hu⟩, ih hv⟩

namespace Expr

/-- Without choices, every nonterminal contributes. -/
theorem exists_mem_of_mem_denote {tokens : Token → Language Token} {I : Valuation} {e : Expr}
    {w : List Token} (hfree : e.isChoiceFree) (h : w ∈ e.denote tokens I) :
    ∀ symbol ∈ e.nonterminals, ∃ u, u ∈ I symbol := by
  induction e generalizing w with
  | terminal | empty => simp [mem_nonterminals]
  | nonterminal symbol =>
    intro other ho
    obtain rfl : other = symbol := by simpa [mem_nonterminals] using ho
    exact ⟨w, h⟩
  | seq items ih =>
    intro symbol hs
    obtain ⟨item, hi, hs⟩ := mem_nonterminals_seq.mp hs
    rw [denote_seq] at h
    obtain ⟨u, hu⟩ := exists_mem_of_mem_list_prod h _ (List.mem_map_of_mem hi)
    exact ih item hi (List.all_eq_true.mp (isChoiceFree_seq items ▸ hfree) item hi) hu symbol hs
  | alt => simp at hfree

end Expr

namespace Grammar

variable {g : Grammar} {start symbol : Nonterminal} {rule : Rule}

/-! ## Productive rules -/

/-- A rule is productive when every nonterminal of its right-hand side has a productive rule. -/
theorem mem_productiveRules (hr : rule ∈ g.rules)
    (h : ∀ symbol ∈ rule.rhs.nonterminals, ∃ r ∈ g.productiveRules, r.lhs = symbol) :
    rule ∈ g.productiveRules := by
  refine g.productiveStep.next_closure_subset (fun _ _ _ => rfl) [] ?_
  refine List.mem_filter.mpr ⟨hr, List.all_eq_true.mpr fun symbol hs => ?_⟩
  rw [List.contains_iff_mem]
  exact List.mem_map.mpr (h symbol hs)

theorem refines_productivePart : g.productivePart.Refines g :=
  refines_rooted _ (fun h => by simp [h]) fun symbol _ =>
    languages_ofRules_mono _ (List.filter_subset_self _) symbol

theorem languages_productiveRules (hfree : g.IsChoiceFree)
    (wellFormed : ∀ rule ∈ g.rules.filter g.productiveRules.contains, rule.rhs.WellFormed) :
    (ofRules (g.rules.filter g.productiveRules.contains) wellFormed).languages = g.languages := by
  refine funext fun symbol => le_antisymm
    (languages_ofRules_mono wellFormed (List.filter_subset_self _) symbol)
    (languages_le (fun rule hr w hw => ?_) symbol)
  -- The nonterminals of the right-hand side derive something by productive rules.
  have hproductive : rule ∈ g.productiveRules := by
    refine mem_productiveRules hr fun symbol hs => ?_
    obtain ⟨u, hu⟩ := Expr.exists_mem_of_mem_denote (hfree rule hr) hw symbol hs
    obtain ⟨r, hr, hlhs, -⟩ := mem_languages_iff.mp hu
    exact ⟨r, List.contains_iff_mem.mp (List.mem_filter.mp (mem_ofRules.mp hr)).2, hlhs⟩
  refine holds_ofRules wellFormed (List.mem_filter.mpr ⟨hr, ?_⟩) hw
  exact List.contains_iff_mem.mpr hproductive

theorem preserves_productivePart (hfree : g.IsChoiceFree) : g.productivePart.Preserves g :=
  preserves_rooted _ (fun h => by simp [h]) fun _ _ => by rw [languages_productiveRules hfree]

theorem productivePart_rules_subset : g.productivePart.rules ⊆ g.rules :=
  fun _ hr => (List.mem_filter.mp (rooted_rules_subset _ hr)).1

/-! ## Reachable symbols -/

theorem mem_reachableFrom_self : start ∈ g.reachableFrom start :=
  Step.subset_closure (List.mem_singleton_self start)

theorem mem_reachableFrom_of_rule (hr : rule ∈ g.rules) (hlhs : rule.lhs ∈ g.reachableFrom start)
    (hs : symbol ∈ rule.rhs.nonterminals) : symbol ∈ g.reachableFrom start := by
  refine g.reachableStep.successors_subset_closure (fun _ _ => rfl) hlhs ?_
  exact List.mem_flatMap.mpr ⟨rule, mem_rulesFor.mpr ⟨hr, rfl⟩, hs⟩

/-- A reachable symbol is the start symbol or stands in a rule of a reachable one. -/
theorem eq_or_exists_of_mem_reachableFrom (h : symbol ∈ g.reachableFrom start) :
    symbol = start ∨
      ∃ rule ∈ g.rules, rule.lhs ∈ g.reachableFrom start ∧ symbol ∈ rule.rhs.nonterminals := by
  -- Being reachable is carried along, since the rules that lead on must be those of such symbols.
  have key : ∀ symbol ∈ g.reachableFrom start, symbol ∈ g.reachableFrom start ∧
      (symbol = start ∨
        ∃ rule ∈ g.rules, rule.lhs ∈ g.reachableFrom start ∧ symbol ∈ rule.rhs.nonterminals) := by
    refine g.reachableStep.closure_induction (by simpa using mem_reachableFrom_self) ?_
    intro known frontier hsub hp symbol hs
    obtain ⟨source, hsource, hfrom⟩ := List.mem_flatMap.mp hs
    obtain ⟨rule, hfor, hrhs⟩ := List.mem_flatMap.mp hfrom
    obtain ⟨hr, rfl⟩ := mem_rulesFor.mp hfor
    have hlhs := (hp _ (hsub hsource)).1
    exact ⟨mem_reachableFrom_of_rule hr hlhs hrhs, .inr ⟨rule, hr, hlhs, hrhs⟩⟩
  exact (key symbol h).2

theorem mem_reachablePart (hstart : g.start? = some start) :
    rule ∈ g.reachablePart.rules ↔ rule ∈ g.rules ∧ rule.lhs ∈ g.reachableFrom start := by
  simp [reachablePart, hstart]

theorem start?_reachablePart : g.reachablePart.start? = g.start? := by
  cases hrules : g.rules with
  | nil =>
    have hstart := start?_eq_none_iff.mpr hrules
    rw [hstart]
    simp only [reachablePart, hstart]
    rfl
  | cons rule rules =>
    have hstart : g.start? = some rule.lhs := by simp [start?, hrules]
    simp [reachablePart, hstart, start?_ofRules, hrules, mem_reachableFrom_self]

theorem languages_reachablePart (hstart : g.start? = some start)
    (hs : symbol ∈ g.reachableFrom start) :
    g.reachablePart.languages symbol = g.languages symbol := by
  refine le_antisymm (languages_mono (fun _ hr => ((mem_reachablePart hstart).mp hr).1) symbol) ?_
  -- Nothing is claimed of unreachable symbols.
  have hle := languages_le (g := g) (I := fun symbol => {w | symbol ∈ g.reachableFrom start →
    w ∈ g.reachablePart.languages symbol}) ?_ symbol
  · exact fun w hw => hle hw hs
  · intro rule hr w hw hlhs
    refine holds_languages ((mem_reachablePart hstart).mpr ⟨hr, hlhs⟩)
      (Expr.denote_mono (fun symbol hs u hu => ?_) hw)
    exact hu (mem_reachableFrom_of_rule hr hlhs hs)

theorem preserves_reachablePart : g.reachablePart.Preserves g :=
  .of_start? start?_reachablePart fun _ hstart =>
    languages_reachablePart hstart mem_reachableFrom_self

theorem reachablePart_rules_subset : g.reachablePart.rules ⊆ g.rules := by
  intro rule hr
  cases hstart : g.start? with
  | none => simp [reachablePart, hstart] at hr
  | some start => exact ((mem_reachablePart hstart).mp hr).1

/-! ## The useful part -/

theorem refines_usefulPart : g.usefulPart.Refines g :=
  preserves_reachablePart.toRefines.trans refines_productivePart

theorem preserves_usefulPart (hfree : g.IsChoiceFree) : g.usefulPart.Preserves g :=
  preserves_reachablePart.trans (preserves_productivePart hfree)

theorem usefulPart_rules_subset : g.usefulPart.rules ⊆ g.rules :=
  fun _ hr => productivePart_rules_subset (reachablePart_rules_subset hr)

end Grammar

end ContextFree
