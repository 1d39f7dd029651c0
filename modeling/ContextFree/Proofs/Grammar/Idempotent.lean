import ContextFree.Proofs.Grammar.Clean
import ContextFree.Proofs.Grammar.StartFirst

/-!
# Transformations done twice

Each transformation has a property that keeps it from doing anything, and whatever it produces has
the property; so doing it once more changes nothing (`Stage.apply_apply`). Besides what a
transformation is for, the property includes that the rules of the start symbol come first
(`Grammar.IsRooted`) where they are moved to the front.
-/

namespace ContextFree

theorem filter_append_filter_not_of_pairwise {α : Type} {p : α → Bool} {l : List α}
    (h : l.Pairwise fun a b => p b → p a) : l.filter p ++ l.filter (fun a => !p a) = l := by
  induction l with
  | nil => rfl
  | cons a l ih =>
    obtain ⟨ha, hl⟩ := List.pairwise_cons.mp h
    by_cases hp : p a
    · simpa [hp] using ih hl
    · have hnone : ∀ b ∈ l, ¬p b := fun b hb hpb => hp (ha b hb hpb)
      have hfirst : l.filter p = [] := List.filter_eq_nil_iff.mpr hnone
      have hsecond : l.filter (fun a => !p a) = l := List.filter_eq_self.mpr (by simpa using hnone)
      simp [hp, hfirst, hsecond]

namespace Expr

/-! ## Without optional items -/

theorem mem_atoms_of_mem_items {e item : Expr} (hi : item ∈ e.items) (hatom : item.isAtom) :
    item ∈ e.atoms := by
  have hself : item ∈ item.atoms := by
    cases item with
    | terminal | nonterminal | empty => simp
    | seq | alt => simp [isAtom] at hatom
  cases e with
  | seq items =>
    rw [atoms_seq]
    exact List.mem_flatMap.mpr ⟨item, hi, hself⟩
  | terminal | nonterminal | empty | alt => rwa [← List.mem_singleton.mp hi]

theorem WellFormed.eq_empty {e : Expr} (h : e.WellFormed) (hfree : e.isChoiceFree)
    (hatoms : ∀ atom ∈ e.atoms, atom = .empty) : e = .empty := by
  rw [← h.concat_items]
  apply concat_eq_empty
  intro item hi
  exact hatoms item (mem_atoms_of_mem_items hi (h.isAtom_of_mem_items hfree hi))

theorem primeFor_nil (item : Expr) : primeFor [] item = none := by
  cases h : item.nonterminal? <;> simp [primeFor, h]

theorem keep_nil (a : Arithmetic) (mask index : Nat) (items : List Expr) :
    keep a [] mask index items = items := by
  induction items with
  | nil => rfl
  | cons item items ih => rw [keep, primeFor_nil, ih]

theorem variants_nil (a : Arithmetic) (items : List Expr) : variants a [] items = [items] := by
  have hcount : optionalCount [] items = 0 := by simp [optionalCount, primeFor_nil]
  rw [variants, hcount, Arithmetic.shift_zero]
  exact congrArg ([·]) (keep_nil a 0 0 items)

/-! ## Pairs of pairs -/

/-- A sequence in the place of this right-hand side is a pair without terminals. -/
def IsPaired (e : Expr) : Prop :=
  e.isSeq → ∃ left right, e = .seq [left, right] ∧ left.terminal? = none ∧ right.terminal? = none

end Expr

namespace Rule

variable {a : Arithmetic} {rule : Rule} {rules : List Rule} {numbering : Numbering}

theorem withPrimes_nil (h : ∀ rule ∈ rules, rule.rhs.WellFormed) :
    withPrimes a [] rules = rules := by
  have hself : ∀ rule ∈ rules, variants a [] rule = [rule] := fun rule hr => by
    rw [variants, Expr.variants_nil, List.map_singleton, (h rule hr).concat_items]
  rw [withPrimes, primedCopies, List.flatMap_nil, List.append_nil, List.flatMap_def,
    List.map_congr_left hself, ← List.flatMap_def]
  simp

theorem orphans_nil : orphans rules [] = [] := by
  have hnone : ∀ symbol ∈ orphans rules [], False :=
    (orphanStep rules []).closure_induction (by simp [withoutRules]) (by simp [orphanStep])
  exact List.eq_nil_iff_forall_not_mem.mpr hnone

theorem binarize_eq_self (hwf : rule.rhs.WellFormed) (h : rule.rhs.IsPaired) :
    rule.binarize numbering = ([rule], numbering) := by
  by_cases hseq : rule.isSequence
  · obtain ⟨left, right, hrhs, hleft, hright⟩ := h hseq
    obtain ⟨lhs, rhs⟩ := rule
    obtain rfl : rhs = .seq [left, right] := hrhs
    have hconcat : Expr.concat [left, right] = .seq [left, right] := hwf.concat_items
    simp [binarize, Expr.liftTerminals_of_terminal?_eq_none hleft,
      Expr.liftTerminals_of_terminal?_eq_none hright, Expr.liftTerminals, Expr.pairUp, hconcat]
  · exact binarize_of_not_isSequence hseq

theorem binarizeAll_eq_self (hwf : ∀ rule ∈ rules, rule.rhs.WellFormed)
    (h : ∀ rule ∈ rules, rule.rhs.IsPaired) : binarizeAll rules numbering = (rules, numbering) := by
  induction rules with
  | nil => rfl
  | cons rule rules ih =>
    obtain ⟨hwfrule, hwf⟩ := List.forall_mem_cons.mp hwf
    obtain ⟨hrule, h⟩ := List.forall_mem_cons.mp h
    rw [binarizeAll, binarize_eq_self hwfrule hrule, ih hwf h]
    rfl

theorem isPaired_of_mem_binarize (hwf : rule.rhs.WellFormed) :
    ∀ r ∈ (rule.binarize numbering).1, r.rhs.IsPaired := by
  intro r hr hseq
  cases isPiece_of_mem_binarize hwf hr with
  | whole not_sequence => exact absurd hseq not_sequence
  | terminal => simp [Expr.isSeq] at hseq
  | pair _ hleft hright =>
    exact ⟨_, _, rfl, hleft.terminal?_eq_none, hright.terminal?_eq_none⟩

/-! ## One rule for each symbol -/

theorem filter_lhs_eq_singleton (hnodup : (rules.map lhs).Nodup) (hr : rule ∈ rules) :
    rules.filter (fun r => decide (r.lhs = rule.lhs)) = [rule] := by
  apply List.perm_singleton.mp
  apply (List.perm_ext_iff_of_nodup ((List.Nodup.of_map lhs hnodup).filter _) (by simp)).mpr
  intro r
  simp only [List.mem_filter, decide_eq_true_eq, List.mem_singleton]
  exact ⟨fun h => List.inj_on_of_nodup_map hnodup h.1 hr h.2, fun h => by simp [h, hr]⟩

end Rule

namespace Grammar

variable {a : Arithmetic} {g h : Grammar} {symbol : Nonterminal} {start? : Option Nonterminal}
  {rules : List Rule}

/-! ## The start symbol's rules first -/

/-- A rule before one of the start symbol is one of the start symbol, too. -/
def IsRooted (g : Grammar) : Prop :=
  g.rules.Pairwise fun r r' => g.start? = some r'.lhs → g.start? = some r.lhs

theorem IsRooted.sublist (hg : g.IsRooted) (hsub : h.rules.Sublist g.rules)
    (hstart : h.start? = g.start?) : h.IsRooted := by
  rw [IsRooted, hstart]
  exact List.Pairwise.sublist hsub hg

theorem isRooted_rooted (wellFormed : ∀ rule ∈ rules, rule.rhs.WellFormed)
    (hnone : start? = none → rules = []) : (rooted start? rules wellFormed).IsRooted := by
  cases start? with
  | none => simp [IsRooted, rooted, hnone rfl]
  | some start =>
    by_cases hs : ∃ rule ∈ rules, rule.lhs = start
    · rw [IsRooted, (rooted_of_exists wellFormed hs).2, rooted, if_pos (by simpa using hs)]
      refine List.Pairwise.sublist (eraseDups_sublist _) (List.pairwise_append.mpr ⟨?_, ?_, ?_⟩)
      · apply List.pairwise_of_forall_mem_list
        intro r hr _ _ _
        simpa [eq_comm] using (List.mem_filter.mp hr).2
      · apply List.pairwise_of_forall_mem_list
        intro r _ r' hr' heq
        have hne : r'.lhs ≠ start := by simpa using (List.mem_filter.mp hr').2
        exact absurd (Option.some.inj heq).symm hne
      · intro r hr _ _ _
        simpa [eq_comm] using (List.mem_filter.mp hr).2
    · simp [IsRooted, rooted_of_not_exists wellFormed hs]

/-- Nothing is moved to the front if it is there already. -/
theorem IsRooted.rooted_eq_self (hg : g.IsRooted) (hstart : start? = g.start?)
    (hrules : rules = g.rules) (wellFormed : ∀ rule ∈ rules, rule.rhs.WellFormed) :
    rooted start? rules wellFormed = g := by
  subst hstart hrules
  cases hs : g.start? with
  | none => exact ofRules_rules g
  | some start =>
    have hany : g.rules.any fun rule => decide (rule.lhs = start) := by
      simpa using exists_rule_of_start? hs
    rw [IsRooted, hs] at hg
    apply ext
    rw [rooted, if_pos hany, rules_ofRules, filter_append_filter_not_of_pairwise,
      eraseDups_eq_self g.nodup]
    refine hg.imp fun h hs => decide_eq_true ?_
    exact (Option.some.inj (h (congrArg some (of_decide_eq_true hs).symm))).symm

theorem isRooted_startRulesFirst : g.startRulesFirst.IsRooted :=
  isRooted_rooted _ start?_eq_none_iff.mp

/-! ## Joining alternatives -/

theorem joinAlternatives_eq_self (hnodup : (g.rules.map Rule.lhs).Nodup) :
    g.joinAlternatives = g := by
  have hself : ∀ rule ∈ g.rules,
      (⟨rule.lhs, Expr.anyOf ((g.rules.filter fun r => decide (r.lhs = rule.lhs)).map Rule.rhs)⟩ :
        Rule) = rule := by
    intro rule hr
    rw [Rule.filter_lhs_eq_singleton hnodup hr]
    rfl
  have hall : Rule.joinAll g.rules = g.rules := by
    rw [Rule.joinAll, eraseDups_eq_self hnodup, List.map_map]
    exact (List.map_congr_left hself).trans (List.map_id g.rules)
  apply ext
  rw [joinAlternatives, rules_ofRules, hall, eraseDups_eq_self g.nodup]

theorem nodup_lhs_joinAlternatives : (g.joinAlternatives.rules.map Rule.lhs).Nodup := by
  have hlhs : (Rule.joinAll g.rules).map Rule.lhs = (g.rules.map Rule.lhs).eraseDups := by
    simp [Rule.joinAll, Function.comp_def]
  refine List.Nodup.sublist ((eraseDups_sublist (Rule.joinAll g.rules)).map Rule.lhs) ?_
  rw [hlhs]
  exact nodup_eraseDups _

/-! ## Eliminating rules for the empty string -/

/-- A symbol is only nullable by a rule for the empty string if no such symbol is mentioned. -/
theorem EpsilonIsolated.exists_of_mem_nullable (h : g.EpsilonIsolated) (hfree : g.IsChoiceFree)
    (hs : symbol ∈ g.nullable) : ∃ rule ∈ g.rules, rule.rhs = .empty ∧ rule.lhs = symbol := by
  refine g.nullableStep.closure_induction
    (p := fun symbol => ∃ rule ∈ g.rules, rule.rhs = .empty ∧ rule.lhs = symbol)
    (fun symbol hs => ?_) (fun known _ _ hknown symbol hs => ?_) symbol hs
  · obtain ⟨rule, hr, rfl⟩ := List.mem_map.mp hs
    obtain ⟨hr, hepsilon⟩ := List.mem_filter.mp hr
    exact ⟨rule, hr, of_decide_eq_true hepsilon, rfl⟩
  · obtain ⟨rule, hr, rfl⟩ := List.mem_map.mp hs
    obtain ⟨hr, hnullable⟩ := List.mem_filter.mp hr
    refine ⟨rule, hr, (g.wellFormed rule hr).eq_empty (hfree rule hr) fun atom ha => ?_, rfl⟩
    rcases Expr.isNullableBy_iff.mp hnullable atom ha with heq | ⟨s, hs, rfl⟩
    · exact heq
    · obtain ⟨r, hr', hempty, rfl⟩ := hknown s hs
      exact absurd (Expr.mem_nonterminals.mpr ha) (h r hr' hempty rule hr)

theorem EpsilonIsolated.optionalSymbols_eq_nil (h : g.EpsilonIsolated) (hfree : g.IsChoiceFree) :
    g.optionalSymbols = [] := by
  apply List.eq_nil_iff_forall_not_mem.mpr
  intro symbol hs
  obtain ⟨hnull, rule, hr, hi⟩ := mem_optionalSymbols.mp hs
  obtain ⟨r, hr', hempty, rfl⟩ := h.exists_of_mem_nullable hfree hnull
  refine h r hr' hempty rule hr (Expr.mem_nonterminals_of_mem_items hi ?_)
  simp [Expr.mem_nonterminals]

/-- Without optional items, rules are only moved. -/
theorem EpsilonIsolated.eliminateEpsilon_eq_startRulesFirst (h : g.EpsilonIsolated)
    (hfree : g.IsChoiceFree) : g.eliminateEpsilon a = g.startRulesFirst := by
  have hself : g.splitAlternatives = g := splitAlternatives_eq_self hfree
  have hprimes : g.primes = [] := by simp [primes, h.optionalSymbols_eq_nil hfree]
  have hprimed : g.primedRules a = g.rules := by
    rw [primedRules, hprimes, Rule.withPrimes_nil g.wellFormed]
  have horphans : g.orphans a = [] := by
    rw [orphans, hprimes, List.map_nil, Rule.orphans_nil]
  simp [eliminateEpsilon, startRulesFirst, hself, horphans, hprimed, Rule.avoiding]

theorem eliminateEpsilon_eq_self (hfree : g.IsChoiceFree) (hisolated : g.EpsilonIsolated)
    (hrooted : g.IsRooted) : g.eliminateEpsilon a = g := by
  rw [hisolated.eliminateEpsilon_eq_startRulesFirst hfree]
  exact hrooted.rooted_eq_self rfl rfl _

theorem isRooted_eliminateEpsilon : (g.eliminateEpsilon a).IsRooted := by
  apply isRooted_rooted
  intro hstart
  simp [Rule.avoiding, primedRules, Rule.withPrimes, Rule.primedCopies,
    start?_eq_none_iff.mp hstart]

/-! ## Eliminating unit rules -/

theorem eliminateUnits_eq_self (hfree : g.IsChoiceFree) (hunit : ∀ rule ∈ g.rules, ¬rule.isUnit)
    (hrooted : g.IsRooted) : g.eliminateUnits = g := by
  have hself : g.splitAlternatives = g := splitAlternatives_eq_self hfree
  have hresolve : ∀ rule ∈ g.rules, g.resolveUnit rule = [rule] := by
    intro rule hr
    have hunit := hunit rule hr
    obtain ⟨lhs, rhs⟩ := rule
    cases rhs with
    | nonterminal => simp [Rule.isUnit, Expr.nonterminal?] at hunit
    | terminal | empty | seq | alt => simp [resolveUnit, Rule.isSelfLoop, Expr.nonterminal?]
  refine hrooted.rooted_eq_self (by rw [hself]) ?_ _
  rw [hself, List.flatMap_def, List.map_congr_left hresolve, ← List.flatMap_def]
  simp

theorem isRooted_eliminateUnits : g.eliminateUnits.IsRooted :=
  isRooted_rooted _ fun hstart => by simp [start?_eq_none_iff.mp hstart]

/-! ## Leaving out useless rules -/

theorem productivePart_eq_self (h : ∀ rule ∈ g.rules, rule.rhs.Each g.Productive)
    (hrooted : g.IsRooted) : g.productivePart = g := by
  refine hrooted.rooted_eq_self rfl (List.filter_eq_self.mpr fun rule hr => ?_) _
  exact List.contains_iff_mem.mpr (mem_productiveRules_iff.mpr ⟨hr, h rule hr⟩)

theorem isRooted_productivePart : g.productivePart.IsRooted :=
  isRooted_rooted _ fun hstart => by simp [start?_eq_none_iff.mp hstart]

theorem rules_reachablePart_sublist : g.reachablePart.rules.Sublist g.rules := by
  cases hstart : g.start? with
  | none => simp [reachablePart, hstart]
  | some start =>
    simp only [reachablePart, hstart, rules_ofRules]
    exact (eraseDups_sublist _).trans List.filter_sublist

theorem reachablePart_eq_self (h : ∀ rule ∈ g.rules, g.Reachable rule.lhs) :
    g.reachablePart = g := by
  refine ext (rules_reachablePart_sublist.eq_of_length_le ?_)
  refine (List.subperm_of_subset g.nodup fun rule hr => ?_).length_le
  exact mem_reachablePart_iff.mpr ⟨hr, h rule hr⟩

theorem usefulPart_eq_self (hclean : g.IsClean) (hrooted : g.IsRooted) : g.usefulPart = g := by
  rw [usefulPart, productivePart_eq_self hclean.productive hrooted,
    reachablePart_eq_self hclean.reachable]

theorem isRooted_usefulPart : g.usefulPart.IsRooted :=
  isRooted_productivePart.sublist rules_reachablePart_sublist start?_reachablePart

/-! ## Breaking sequences into pairs -/

theorem binarize_eq_self (h : ∀ rule ∈ g.rules, rule.rhs.IsPaired) (hrooted : g.IsRooted) :
    g.binarize = g :=
  hrooted.rooted_eq_self rfl (by rw [pairs, Rule.binarizeAll_eq_self g.wellFormed h]) _

theorem isPaired_binarize : ∀ rule ∈ g.binarize.rules, rule.rhs.IsPaired := by
  intro rule hr
  obtain ⟨origin, horigin, later, -, hr, -⟩ := exists_of_mem_binarize hr
  exact Rule.isPaired_of_mem_binarize (g.wellFormed origin horigin) rule hr

theorem isRooted_binarize : g.binarize.IsRooted :=
  isRooted_rooted _ fun hstart => by
    simp [pairs, start?_eq_none_iff.mp hstart, Rule.binarizeAll]

/-! ## Normalizing -/

theorem IsNormal.not_isUnit (h : g.IsNormal) {rule : Rule} (hr : rule ∈ g.rules) :
    ¬rule.isUnit := by
  rcases h.rhs_cases hr with hrhs | ⟨token, hrhs⟩ | ⟨left, right, hrhs⟩
  all_goals simp [Rule.isUnit, hrhs, Expr.nonterminal?]

theorem IsNormal.isPaired (h : g.IsNormal) {rule : Rule} (hr : rule ∈ g.rules) :
    rule.rhs.IsPaired := by
  intro hseq
  rcases h.rhs_cases hr with hrhs | ⟨token, hrhs⟩ | ⟨left, right, hrhs⟩
  · simp [hrhs, Expr.isSeq] at hseq
  · simp [hrhs, Expr.isSeq] at hseq
  · exact ⟨_, _, hrhs, rfl, rfl⟩

theorem toCnf_eq_self (hnormal : g.IsNormal) (hclean : g.IsClean) (hrooted : g.IsRooted) :
    g.toCnf a = g := by
  rw [toCnf, splitAlternatives_eq_self hnormal.isChoiceFree,
    eliminateEpsilon_eq_self hnormal.isChoiceFree hnormal.isolated hrooted,
    eliminateUnits_eq_self hnormal.isChoiceFree (fun _ => hnormal.not_isUnit) hrooted,
    usefulPart_eq_self hclean hrooted, binarize_eq_self (fun _ => hnormal.isPaired) hrooted]

end Grammar

namespace Stage

/-- A transformation changes nothing that it has produced, not even the order of the rules. -/
theorem apply_apply (a : Arithmetic) (stage : Stage) (g : Grammar) :
    stage.apply a (stage.apply a g) = stage.apply a g := by
  cases stage with
  | splitAlternatives =>
    exact Grammar.splitAlternatives_eq_self Grammar.splitAlternatives_isChoiceFree
  | joinAlternatives =>
    exact Grammar.joinAlternatives_eq_self Grammar.nodup_lhs_joinAlternatives
  | eliminateEpsilon =>
    exact Grammar.eliminateEpsilon_eq_self Grammar.eliminateEpsilon_isChoiceFree
      Grammar.epsilonIsolated_eliminateEpsilon Grammar.isRooted_eliminateEpsilon
  | eliminateUnits =>
    exact Grammar.eliminateUnits_eq_self Grammar.eliminateUnits_isChoiceFree
      (fun _ hr => (Grammar.exists_of_mem_eliminateUnits hr).1) Grammar.isRooted_eliminateUnits
  | productivePart =>
    exact Grammar.productivePart_eq_self (fun _ => Grammar.each_productive_productivePart)
      Grammar.isRooted_productivePart
  | reachablePart =>
    exact Grammar.reachablePart_eq_self fun _ hr =>
      Grammar.reachable_reachablePart (Grammar.mem_reachablePart_iff.mp hr).2
  | usefulPart =>
    exact Grammar.usefulPart_eq_self Grammar.isClean_usefulPart Grammar.isRooted_usefulPart
  | binarize => exact Grammar.binarize_eq_self Grammar.isPaired_binarize Grammar.isRooted_binarize
  | toCnf =>
    exact Grammar.toCnf_eq_self (g.isNormal_toCnf a) (g.isClean_toCnf a) Grammar.isRooted_binarize

end Stage

end ContextFree
