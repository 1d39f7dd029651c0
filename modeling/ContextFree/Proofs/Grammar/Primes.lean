import ContextFree.Proofs.Grammar.NormalForm
import ContextFree.Proofs.Grammar.StartFirst

/-!
# Plain and primed symbols

When the rules for the empty string are eliminated, the plainest copy of every rule survives: the
one that leaves out all optional items, since it mentions no primed symbol. So no symbol loses all
of its rules, and a nullable one is left with a rule for the empty string. Plain symbols derive what
they did, primed symbols what their plain symbols do except the empty string, and only symbols that
are not nullable are mentioned (`Grammar.eliminateEpsilon_spec`).
-/

namespace ContextFree

namespace Rule

theorem orphans_subset {rules : List Rule} {symbols : List Nonterminal} :
    orphans rules symbols ⊆ symbols :=
  (orphanStep rules symbols).closure_induction (fun _ h => (List.mem_filter.mp h).1)
    fun _ _ _ _ _ h => (List.mem_filter.mp h).1

end Rule

namespace Grammar

variable {a : Arithmetic} {g : Grammar} {symbol primed : Nonterminal} {rule : Rule}

theorem has_names_of_derives {w : List Token} (h : g.Derives (.nonterminal symbol) w) :
    g.names.Has symbol := by
  obtain ⟨rule, hr, rfl, -⟩ := derives_nonterminal_iff.mp h
  exact has_names_lhs hr

/-! ## Rules that survive -/

/-- The copy of a rule without its optional items. -/
def requiredCopy (g : Grammar) (rule : Rule) : Rule :=
  ⟨rule.lhs, .concat (Expr.required g.primes rule.rhs.items)⟩

/-- Such a copy only mentions what its rule does, so it does not go with the orphans. -/
theorem requiredCopy_mem_avoiding (hr : rule ∈ g.rules) :
    g.requiredCopy rule ∈ Rule.avoiding (g.orphans .unbounded) (g.primedRules .unbounded) := by
  have hvariant : Expr.required g.primes rule.rhs.items ∈
      Expr.variants .unbounded g.primes rule.rhs.items :=
    Expr.mem_variants_iff.mpr Expr.isVariant_required
  refine mem_avoiding.mpr ⟨mem_primedRules.mpr (.inl ⟨rule, hr, _, hvariant, rfl⟩), ?_⟩
  intro orphan ho
  obtain ⟨⟨plain, orphan⟩, hp, rfl⟩ := List.mem_map.mp (Rule.orphans_subset ho)
  have hnew : ¬g.names.Has orphan := prime_notHas hp
  refine ⟨fun heq : rule.lhs = orphan => hnew (heq ▸ has_names_lhs hr), fun hs => ?_⟩
  obtain ⟨item, hi, hs⟩ := Expr.mem_nonterminals_concat.mp hs
  apply hnew
  apply covers_names_rhs hr
  exact Expr.mem_nonterminals_of_mem_items (Expr.mem_required.mp hi).1 hs

/-- Nothing is required of a right-hand side that derives the empty string. -/
theorem requiredCopy_eq_of_nil_mem (hfree : g.IsChoiceFree) (hr : rule ∈ g.rules)
    (hnil : [] ∈ rule.rhs.denote spell g.languages) : g.requiredCopy rule = ⟨rule.lhs, .empty⟩ := by
  rw [requiredCopy, Expr.concat_eq_empty]
  intro item hi
  obtain ⟨hi, hprime⟩ := Expr.mem_required.mp hi
  have hatom := (g.wellFormed rule hr).isAtom_of_mem_items (hfree rule hr) hi
  rw [← Expr.prod_denote_items, nil_mem_list_prod_iff, List.forall_mem_map] at hnil
  have hitem := hnil item hi
  cases item with
  | terminal => simp at hitem
  | nonterminal symbol =>
    obtain ⟨primed, hsome⟩ := exists_primeFor ((mem_nullable_iff hfree).mpr hitem) hr hi
    rw [hsome] at hprime
    cases hprime
  | empty => rfl
  | seq | alt => simp [Expr.isAtom] at hatom

theorem mem_eliminateEpsilon_iff : rule ∈ (g.eliminateEpsilon .unbounded).rules ↔
    rule ∈ Rule.avoiding (g.splitAlternatives.orphans .unbounded)
      (g.splitAlternatives.primedRules .unbounded) := by
  apply mem_rooted_iff
  intro start hstart
  obtain ⟨origin, horigin, rfl⟩ := exists_rule_of_start? hstart
  exact ⟨_, requiredCopy_mem_avoiding horigin, rfl⟩

/-- Just the nullable symbols have a rule for the empty string. -/
theorem epsilon_mem_eliminateEpsilon_iff (hs : g.splitAlternatives.names.Has symbol) :
    ⟨symbol, .empty⟩ ∈ (g.eliminateEpsilon .unbounded).rules ↔
      g.splitAlternatives.Derives (.nonterminal symbol) [] := by
  have hfree : g.splitAlternatives.IsChoiceFree := splitAlternatives_isChoiceFree
  constructor
  · intro hr
    have hprimed := mem_primedRules_of_mem_eliminateEpsilon hr
    exact (mem_nullable_iff hfree).mp (mem_nullable_of_mem_primedRules hfree hprimed rfl).1
  · intro hnil
    obtain ⟨rule, hr, rfl, hrhs⟩ := mem_languages_iff.mp hnil
    rw [mem_eliminateEpsilon_iff, ← requiredCopy_eq_of_nil_mem hfree hr hrhs]
    exact requiredCopy_mem_avoiding hr

/-! ## What is derived -/

theorem wellFormed_primedRules : ∀ rule ∈ g.primedRules a, rule.rhs.WellFormed :=
  Rule.wellFormed_of_mem_withPrimes g.wellFormed

theorem languages_eliminateEpsilon
    (wellFormed : ∀ rule ∈ g.splitAlternatives.primedRules .unbounded, rule.rhs.WellFormed) :
    (g.eliminateEpsilon .unbounded).languages =
      (ofRules (g.splitAlternatives.primedRules .unbounded) wellFormed).languages := by
  have hfree : ∀ rule ∈ g.splitAlternatives.primedRules .unbounded, rule.rhs.isChoiceFree :=
    isChoiceFree_of_mem_primedRules splitAlternatives_isChoiceFree
  rw [← languages_avoiding wellFormed hfree (not_mem_languages_of_mem_orphans wellFormed hfree)
    fun rule hr => wellFormed rule (mem_avoiding.mp hr).1]
  exact languages_congr fun rule => mem_eliminateEpsilon_iff.trans mem_ofRules.symm

theorem languages_eliminateEpsilon_plain (hs : g.splitAlternatives.names.Has symbol) :
    (g.eliminateEpsilon .unbounded).languages symbol = g.splitAlternatives.languages symbol := by
  rw [languages_eliminateEpsilon wellFormed_primedRules,
    languages_primedRules _ splitAlternatives_isChoiceFree hs]

theorem languages_eliminateEpsilon_prime (hp : (symbol, primed) ∈ g.splitAlternatives.primes) :
    (g.eliminateEpsilon .unbounded).languages primed =
      g.splitAlternatives.languages symbol - 1 := by
  rw [languages_eliminateEpsilon wellFormed_primedRules,
    languages_prime _ splitAlternatives_isChoiceFree hp]

/-! ## What is mentioned -/

/-- The rules are about old symbols and their primes. -/
theorem has_or_mem_primes_of_mem_primedRules (hr : rule ∈ g.primedRules a)
    (hs : symbol = rule.lhs ∨ symbol ∈ rule.rhs.nonterminals) :
    symbol ∈ g.nonterminals ∨ ∃ plain, (plain, symbol) ∈ g.primes := by
  obtain ⟨plain, hplain, items, hvariant, hrhs, hlhs⟩ := exists_variant_of_mem_primedRules hr
  rcases hs with rfl | hs
  · rcases hlhs with hlhs | ⟨hp, -⟩
    · exact .inl (mem_nonterminals.mpr ⟨plain, hplain, .inl hlhs⟩)
    · exact .inr ⟨plain.lhs, hp⟩
  · rw [hrhs] at hs
    obtain ⟨item, hi, hs⟩ := Expr.mem_nonterminals_concat.mp hs
    rcases hvariant.eq_prime_or hi with ⟨old, primed, hlookup, rfl⟩ | ⟨hitem, -⟩
    · obtain rfl : symbol = primed := by simpa [Expr.mem_nonterminals] using hs
      exact .inr ⟨old, lookup_primes_iff.mp hlookup⟩
    · have hold := Expr.mem_nonterminals_of_mem_items hitem hs
      exact .inl (mem_nonterminals.mpr ⟨plain, hplain, .inr hold⟩)

theorem mem_nonterminals_eliminateEpsilon (hs : symbol ∈ (g.eliminateEpsilon a).nonterminals) :
    symbol ∈ g.splitAlternatives.nonterminals ∨
      ∃ plain, (plain, symbol) ∈ g.splitAlternatives.primes := by
  obtain ⟨rule, hr, hs⟩ := mem_nonterminals.mp hs
  exact has_or_mem_primes_of_mem_primedRules (mem_primedRules_of_mem_eliminateEpsilon hr) hs

/-- Eliminating the rules for the empty string, symbol by symbol. An old symbol has such a rule just
if it derives the empty string, and it derives what it did. A new symbol is the prime of one that
derives the empty string; it has no such rule and derives the rest. It has been orphaned only if
there is no rest. No symbol that derives the empty string is mentioned. -/
theorem eliminateEpsilon_spec (g : Grammar) :
    (∀ symbol ∈ g.splitAlternatives.nonterminals,
      (⟨symbol, .empty⟩ ∈ (g.eliminateEpsilon .unbounded).rules ↔
        g.splitAlternatives.Derives (.nonterminal symbol) []) ∧
      ∀ w, (g.eliminateEpsilon .unbounded).Derives (.nonterminal symbol) w ↔
        g.splitAlternatives.Derives (.nonterminal symbol) w) ∧
    (∀ symbol ∈ (g.eliminateEpsilon .unbounded).nonterminals,
      symbol ∈ g.splitAlternatives.nonterminals ∨
        ∃ plain, (plain, symbol) ∈ g.splitAlternatives.primes) ∧
    (∀ symbol primed, (symbol, primed) ∈ g.splitAlternatives.primes →
      primed ∉ g.splitAlternatives.nonterminals ∧
      g.splitAlternatives.Derives (.nonterminal symbol) [] ∧
      ⟨primed, .empty⟩ ∉ (g.eliminateEpsilon .unbounded).rules ∧
      (∀ w, (g.eliminateEpsilon .unbounded).Derives (.nonterminal primed) w ↔
        g.splitAlternatives.Derives (.nonterminal symbol) w ∧ w ≠ []) ∧
      (primed ∈ g.splitAlternatives.orphans .unbounded →
        ∀ w, g.splitAlternatives.Derives (.nonterminal symbol) w → w = [])) ∧
    ∀ rule ∈ (g.eliminateEpsilon .unbounded).rules, ∀ symbol ∈ rule.rhs.nonterminals,
      ¬g.splitAlternatives.Derives (.nonterminal symbol) [] := by
  have hfree : g.splitAlternatives.IsChoiceFree := splitAlternatives_isChoiceFree
  refine ⟨fun symbol hs => ?_, fun _ => mem_nonterminals_eliminateEpsilon,
    fun symbol primed hp => ?_, fun rule hr symbol hs hnil => ?_⟩
  · have hhas := has_names_of_mem_nonterminals hs
    refine ⟨epsilon_mem_eliminateEpsilon_iff hhas, fun w => ?_⟩
    rw [← mem_languages, ← mem_languages, languages_eliminateEpsilon_plain hhas]
  · have hprime := languages_eliminateEpsilon_prime hp
    have hnew := prime_notHas hp
    refine ⟨fun h => hnew (has_names_of_mem_nonterminals h),
      (mem_nullable_iff hfree).mp (mem_nullable_of_mem_primes hp), fun hr => ?_, fun w => ?_,
      fun horphan w hw => ?_⟩
    · have hprimed := mem_primedRules_of_mem_eliminateEpsilon hr
      exact hnew (mem_nullable_of_mem_primedRules hfree hprimed rfl).2
    · rw [← mem_languages, hprime]
      exact Iff.rfl
    · have hnone := not_mem_languages_of_mem_orphans wellFormed_primedRules
        (isChoiceFree_of_mem_primedRules hfree) primed horphan w
      rw [languages_prime wellFormed_primedRules hfree hp] at hnone
      exact by_contra fun hne => hnone ⟨hw, hne⟩
  · exact notMem_nonterminals_of_mem_nullable hfree (mem_primedRules_of_mem_eliminateEpsilon hr)
      ((mem_nullable_iff hfree).mpr hnil) (has_names_of_derives hnil) hs

end Grammar

end ContextFree
