import ContextFree.Proofs.Grammar.Idempotent
import ContextFree.Proofs.Grammar.StartFirst
import ContextFree.Proofs.Tree.Usage

/-!
# The useful part and the rules in use

The useful part of a grammar without choices consists of the rules that some tree with the start
symbol at the root applies (`Grammar.mem_usefulPart_iff`). All symbols of a derivation tree are
productive, for the tree itself shows how to derive from them, so it is still a tree of the
productive part; and all of its nodes are reachable from its root.
-/

namespace ContextFree

theorem Expr.each_items {p : Nonterminal → Prop} {e : Expr} :
    (∀ item ∈ e.items, item.Each p) ↔ e.Each p := by
  cases e with
  | seq items => exact each_seq.symm
  | terminal | nonterminal | empty | alt => simp [items]

namespace Tree

variable {g h : Grammar} {t : Tree} {rule : Rule} {w : List Token}

theorem IsDerivation.mono (sub : h.rules ⊆ g.rules) (ht : t.IsDerivation h) : t.IsDerivation g := by
  induction ht with
  | leaf token => exact .leaf token
  | epsilon => exact .epsilon
  | node mem items _ ih => exact .node (sub mem) items ih

/-- What holds of the roots of the children holds of the symbols of the rule above them. -/
theorem each_of_items {p : Nonterminal → Prop} {e : Expr} {children : List Tree}
    (items : e.items = children.map root) (hroots : ∀ child ∈ children, child.root.Each p) :
    e.Each p := by
  rw [← Expr.each_items, items, List.forall_mem_map]
  exact hroots

theorem IsDerivation.each_productive (ht : t.IsDerivation g) : t.root.Each g.Productive := by
  induction ht with
  | leaf token => exact Expr.each_terminal token
  | epsilon => simp [root, Expr.Each, Expr.mem_nonterminals]
  | node mem items _ ih => exact Expr.each_nonterminal.mpr (.rule mem (each_of_items items ih))

theorem IsDerivation.productivePart (hne : g.productivePart.rules ≠ []) (ht : t.IsDerivation g) :
    t.IsDerivation g.productivePart := by
  induction ht with
  | leaf token => exact .leaf token
  | epsilon => exact .epsilon
  | node mem items below ih =>
    have heach := each_of_items items fun child hc => (below child hc).each_productive
    exact .node ((Grammar.mem_productivePart_iff hne).mpr ⟨mem, heach⟩) items ih

/-- From the root all applied rules are reached. -/
theorem IsDerivation.reachable_of_applies (ht : t.IsDerivation g) (hroot : t.root.Each g.Reachable)
    (happlies : t.Applies rule) : rule ∈ g.rules ∧ g.Reachable rule.lhs := by
  induction happlies with
  | root h =>
    subst h
    exact ⟨(isDerivation_node_iff.mp ht).2.1, Expr.each_nonterminal.mp hroot⟩
  | @child symbol child children mem _ ih =>
    obtain ⟨hne, hrule, hbelow⟩ := isDerivation_node_iff.mp ht
    refine ih (hbelow child mem) fun s hs => .rule hrule (Expr.each_nonterminal.mp hroot) ?_
    have hitem : child.root ∈ (ruleAt symbol children).rhs.items := by
      rw [items_ruleAt symbol hne]
      exact List.mem_map_of_mem mem
    exact Expr.mem_nonterminals_of_mem_items hitem hs

theorem IsParse.of_usefulPart (ht : IsParse g.usefulPart w t) : IsParse g w t := by
  obtain ⟨hderivation, ⟨start, hstart, hroot⟩, htokens⟩ := ht
  refine ⟨hderivation.mono Grammar.usefulPart_rules_subset, ⟨start, ?_, hroot⟩, htokens⟩
  rcases (Grammar.refines_usefulPart (g := g)).start with hnil | heq
  · simp [Grammar.start?_eq_none_iff.mpr hnil] at hstart
  · rw [← heq, hstart]

end Tree

namespace Grammar

variable {g : Grammar} {start : Nonterminal} {rule : Rule}

theorem start?_productivePart (hstart : g.start? = some start) (h : g.Productive start) :
    g.productivePart.start? = some start := by
  rw [← hstart]
  refine start?_rooted _ (fun first hfirst => ?_) fun hnone => by simp [hnone] at hstart
  obtain rfl : start = first := Option.some.inj (hstart.symm.trans hfirst)
  obtain ⟨rule, hr, hlhs⟩ := h.exists_productiveRule
  exact ⟨rule, List.mem_filter.mpr ⟨(mem_productiveRules_iff.mp hr).1,
    List.contains_iff_mem.mpr hr⟩, hlhs⟩

theorem usefulPart_isChoiceFree (hfree : g.IsChoiceFree) : g.usefulPart.IsChoiceFree :=
  fun rule hr => hfree rule (usefulPart_rules_subset hr)

theorem mem_usefulPart_iff (hfree : g.IsChoiceFree) : rule ∈ g.usefulPart.rules ↔
    rule ∈ g.rules ∧ ∃ w t, Tree.IsParse g w t ∧ t.Applies rule := by
  constructor
  · intro hr
    obtain ⟨w, t, ht, happlies⟩ :=
      exists_isParse_applies (usefulPart_isChoiceFree hfree) isClean_usefulPart hr
    exact ⟨usefulPart_rules_subset hr, w, t, ht.of_usefulPart, happlies⟩
  · intro h
    obtain ⟨-, w, t, ⟨ht, ⟨start, hstart, hroot⟩, -⟩, happlies⟩ := h
    have hproductive : g.Productive start := Expr.each_nonterminal.mp (hroot ▸ ht.each_productive)
    have hstart' := start?_productivePart hstart hproductive
    have hne : g.productivePart.rules ≠ [] := by
      rw [ne_eq, ← start?_eq_none_iff, hstart']
      exact Option.some_ne_none start
    apply mem_reachablePart_iff.mpr
    refine (ht.productivePart hne).reachable_of_applies ?_ happlies
    rw [hroot]
    exact Expr.each_nonterminal.mpr (.start hstart')

theorem rules_usefulPart_sublist :
    g.usefulPart.rules.Sublist (Rule.startFirst g.start? g.rules) := by
  refine rules_reachablePart_sublist.trans ((rules_rooted_sublist _).trans ?_)
  rw [Rule.startFirst_filter]
  exact List.filter_sublist

theorem usefulPart_rules_eq_nil_iff (hfree : g.IsChoiceFree) :
    g.usefulPart.rules = [] ↔ ∀ w, ¬g.Generates w := by
  constructor
  · intro hnil w hw
    exact not_generates_of_rules_eq_nil hnil w ((preserves_usefulPart hfree).generated hw)
  · intro hnone
    apply List.eq_nil_iff_forall_not_mem.mpr
    intro rule hr
    obtain ⟨-, w, t, ht, -⟩ := (mem_usefulPart_iff hfree).mp hr
    exact hnone w ((Tree.exists_isParse_iff hfree).mp ⟨t, ht⟩)

/-- Without choices, the useful part consists of the rules that are applied somewhere in a tree with
the start symbol at the root, in order but those of the start symbol first. It is empty just if
nothing is generated, and it generates the same. -/
theorem usefulPart_spec (g : Grammar) (hfree : g.IsChoiceFree) :
    (∀ rule, rule ∈ g.usefulPart.rules ↔
      rule ∈ g.rules ∧ ∃ w t, Tree.IsParse g w t ∧ t.Applies rule) ∧
    g.usefulPart.rules.Sublist (Rule.startFirst g.start? g.rules) ∧
    (g.usefulPart.rules = [] ↔ ∀ w, ¬g.Generates w) ∧
    ∀ w, g.usefulPart.Generates w ↔ g.Generates w :=
  ⟨fun _ => mem_usefulPart_iff hfree, rules_usefulPart_sublist, usefulPart_rules_eq_nil_iff hfree,
    fun _ => (preserves_usefulPart hfree).generates_iff⟩

/-- Two symbols that need each other, and one that is defined but not mentioned, take part in no
tree. -/
theorem usefulPart_spec_loop : ∃ g : Grammar, g.IsChoiceFree ∧
    g.rules = [⟨⟨"S"⟩, .seq [.nonterminal ⟨"A"⟩, .nonterminal ⟨"S"⟩]⟩,
      ⟨⟨"A"⟩, .seq [.terminal "a", .nonterminal ⟨"B"⟩]⟩, ⟨⟨"B"⟩, .nonterminal ⟨"A"⟩⟩,
      ⟨⟨"C"⟩, .terminal "c"⟩, ⟨⟨"S"⟩, .terminal "s"⟩] ∧
    g.usefulPart.rules = [⟨⟨"S"⟩, .terminal "s"⟩] ∧
    (∃ w t, Tree.IsParse g w t ∧ t.Applies ⟨⟨"S"⟩, .terminal "s"⟩) ∧
    ¬∃ w t, Tree.IsParse g w t ∧ t.Applies ⟨⟨"B"⟩, .nonterminal ⟨"A"⟩⟩ := by
  let rules : List Rule := [⟨⟨"S"⟩, .seq [.nonterminal ⟨"A"⟩, .nonterminal ⟨"S"⟩]⟩,
    ⟨⟨"A"⟩, .seq [.terminal "a", .nonterminal ⟨"B"⟩]⟩, ⟨⟨"B"⟩, .nonterminal ⟨"A"⟩⟩,
    ⟨⟨"C"⟩, .terminal "c"⟩, ⟨⟨"S"⟩, .terminal "s"⟩]
  let g : Grammar := ⟨rules, by decide, by decide⟩
  have hfree : ∀ rule ∈ rules, rule.rhs.isChoiceFree := by decide
  have huseful : g.usefulPart.rules = [⟨⟨"S"⟩, .terminal "s"⟩] := by decide +kernel
  obtain ⟨hmem, -⟩ := usefulPart_spec g hfree
  refine ⟨g, hfree, rfl, huseful, ?_, ?_⟩
  · exact ((hmem _).mp (by rw [huseful]; decide)).2
  · intro h
    have hr := (hmem ⟨⟨"B"⟩, .nonterminal ⟨"A"⟩⟩).mpr ⟨by decide, h⟩
    exact absurd hr (by rw [huseful]; decide)

end Grammar

end ContextFree
