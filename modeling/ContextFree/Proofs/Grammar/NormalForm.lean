import ContextFree.Proofs.Grammar.Stages

/-!
# The shape of normalized grammars

Eliminating rules for the empty string leaves such rules only to symbols that no right-hand side
mentions (`Grammar.EpsilonIsolated`). Eliminating unit rules keeps that. In the useful part every
symbol other than the start symbol is mentioned, so only the start symbol can have such a rule.
Pairs mention no old symbol that was not mentioned before.
-/

namespace ContextFree

namespace Expr

/-- A right-hand side that consists of a terminal or a pair of nonterminals. -/
inductive IsNormal : Expr → Prop where
  | terminal (token : Token) : IsNormal (.terminal token)
  | pair (left right : Nonterminal) : IsNormal (.seq [.nonterminal left, .nonterminal right])

/-- Without choices, a pair is made of nonterminals. -/
theorem IsPart.exists_nonterminal {e part : Expr} {numbering : Numbering} (hwf : e.WellFormed)
    (hfree : e.isChoiceFree) (h : part.IsPart e.items numbering) :
    ∃ symbol, part = .nonterminal symbol := by
  cases h with
  | item mem factor not_terminal =>
    have hatom := hwf.isAtom_of_mem_items hfree mem
    cases part with
    | nonterminal symbol => exact ⟨symbol, rfl⟩
    | terminal => simp [terminal?] at not_terminal
    | empty => simp [Expr.isFactor] at factor
    | seq | alt => simp [isAtom] at hatom
  | drawn => exact ⟨_, rfl⟩

end Expr

namespace Rule

variable {rule : Rule} {numbering : Numbering} {symbol : Nonterminal}

/-- Breaking up a rule leads to normal rules or leaves it as it is. -/
theorem eq_or_isNormal_of_mem_binarize (hwf : rule.rhs.WellFormed) (hfree : rule.rhs.isChoiceFree)
    {r : Rule} (hr : r ∈ (rule.binarize numbering).1) :
    r = rule ∧ ¬rule.isSequence ∨ r.rhs.IsNormal := by
  cases isPiece_of_mem_binarize hwf hr with
  | whole not_sequence => exact .inl ⟨rfl, not_sequence⟩
  | terminal => exact .inr (.terminal _)
  | pair _ hleft hright =>
    obtain ⟨left, rfl⟩ := hleft.exists_nonterminal hwf hfree
    obtain ⟨right, rfl⟩ := hright.exists_nonterminal hwf hfree
    exact .inr (.pair left right)

/-- A symbol in use is only mentioned if the rule mentioned it. -/
theorem mem_nonterminals_of_mem_binarize (hwf : rule.rhs.WellFormed)
    (hs : numbering.names.Has symbol) {r : Rule} (hr : r ∈ (rule.binarize numbering).1)
    (hmem : symbol ∈ r.rhs.nonterminals) : symbol ∈ rule.rhs.nonterminals := by
  have hpart {part : Expr} (h : part.IsPart rule.rhs.items numbering)
      (hmem : symbol ∈ part.nonterminals) : symbol ∈ rule.rhs.nonterminals := by
    cases h with
    | item mem => exact Expr.mem_nonterminals_of_mem_items mem hmem
    | @drawn drawn draws =>
      obtain rfl : symbol = drawn := by simpa [Expr.mem_nonterminals] using hmem
      exact absurd hs draws.notHas
  cases isPiece_of_mem_binarize hwf hr with
  | whole => exact hmem
  | terminal => simp [Expr.mem_nonterminals] at hmem
  | pair _ hleft hright =>
    obtain ⟨part, hi, hsymbol⟩ := Expr.mem_nonterminals_seq.mp hmem
    rcases List.mem_pair.mp hi with rfl | rfl
    · exact hpart hleft hsymbol
    · exact hpart hright hsymbol

end Rule

namespace Grammar

variable {a : Arithmetic} {g : Grammar} {rule : Rule}

/-- No symbol with a rule for the empty string is mentioned by a right-hand side. -/
def EpsilonIsolated (g : Grammar) : Prop :=
  ∀ rule ∈ g.rules, rule.rhs = .empty → ∀ r ∈ g.rules, rule.lhs ∉ r.rhs.nonterminals

/-- Every rule is normal or a rule of the start symbol for the empty string. In the second case the
start symbol is not mentioned. -/
structure IsNormal (g : Grammar) : Prop where
  normal : ∀ rule ∈ g.rules, rule.rhs = .empty ∨ rule.rhs.IsNormal
  epsilon : ∀ rule ∈ g.rules, rule.rhs = .empty → g.start? = some rule.lhs
  isolated : g.EpsilonIsolated

theorem IsNormal.rhs_cases (h : g.IsNormal) (hr : rule ∈ g.rules) : rule.rhs = .empty ∨
    (∃ token, rule.rhs = .terminal token) ∨
      ∃ left right, rule.rhs = .seq [.nonterminal left, .nonterminal right] := by
  refine (h.normal rule hr).imp_right fun hnormal => ?_
  generalize rule.rhs = rhs at hnormal
  cases hnormal with
  | terminal token => exact .inl ⟨token, rfl⟩
  | pair left right => exact .inr ⟨left, right, rfl⟩

theorem IsNormal.isChoiceFree (h : g.IsNormal) : g.IsChoiceFree := by
  intro rule hr
  rcases h.rhs_cases hr with hrhs | ⟨token, hrhs⟩ | ⟨left, right, hrhs⟩
  all_goals simp [hrhs]

/-! ## After eliminating rules for the empty string -/

/-- The left-hand side of a rule for the empty string is nullable; primed symbols have none. -/
theorem mem_nullable_of_mem_primedRules (hfree : g.IsChoiceFree) (hr : rule ∈ g.primedRules a)
    (hempty : rule.rhs = .empty) : rule.lhs ∈ g.nullable ∧ g.names.Has rule.lhs := by
  obtain ⟨plain, hplain, -, -, -, hlhs | ⟨-, hne⟩⟩ := exists_variant_of_mem_primedRules hr
  · have hhas : g.names.Has rule.lhs := hlhs ▸ has_names_lhs hplain
    have hwf : ∀ rule ∈ g.primedRules a, rule.rhs.WellFormed :=
      Rule.wellFormed_of_mem_withPrimes g.wellFormed
    refine ⟨(mem_nullable_iff hfree).mpr (languages_primedRules_le hwf hfree hhas ?_), hhas⟩
    apply holds_ofRules hwf hr
    rw [hempty]
    rfl
  · exact absurd hempty hne

/-- A nullable symbol is replaced by its prime wherever it is mentioned. -/
theorem notMem_nonterminals_of_mem_nullable (hfree : g.IsChoiceFree) (hr : rule ∈ g.primedRules a)
    {symbol : Nonterminal} (hnull : symbol ∈ g.nullable) (hhas : g.names.Has symbol) :
    symbol ∉ rule.rhs.nonterminals := by
  intro hmem
  obtain ⟨plain, hplain, items, h, hrhs, -⟩ := exists_variant_of_mem_primedRules hr
  rw [hrhs] at hmem
  obtain ⟨item, hi, hmem⟩ := Expr.mem_nonterminals_concat.mp hmem
  obtain rfl : item = .nonterminal symbol := by
    have := isAtom_of_isVariant hfree hplain h hi
    cases item <;> simp_all [Expr.mem_nonterminals, Expr.isAtom]
  rcases h.eq_prime_or hi with ⟨_, primed, hlookup, heq⟩ | ⟨hitem, hprime⟩
  · obtain rfl := Expr.nonterminal.inj heq
    exact prime_notHas (lookup_primes_iff.mp hlookup) hhas
  · obtain ⟨primed, hsome⟩ := exists_primeFor hnull hplain hitem
    rw [hsome] at hprime
    cases hprime

theorem epsilonIsolated_eliminateEpsilon : (g.eliminateEpsilon a).EpsilonIsolated := by
  intro rule hr hempty r hr'
  have hfree : g.splitAlternatives.IsChoiceFree := splitAlternatives_isChoiceFree
  obtain ⟨hnull, hhas⟩ := mem_nullable_of_mem_primedRules hfree
    (mem_primedRules_of_mem_eliminateEpsilon hr) hempty
  exact notMem_nonterminals_of_mem_nullable hfree (mem_primedRules_of_mem_eliminateEpsilon hr')
    hnull hhas

/-! ## After eliminating unit rules and useless rules -/

theorem epsilonIsolated_eliminateUnits (hfree : g.IsChoiceFree) (h : g.EpsilonIsolated) :
    g.eliminateUnits.EpsilonIsolated := by
  have hself : g.splitAlternatives = g := splitAlternatives_eq_self hfree
  intro rule hr hempty r hr' hmem
  obtain ⟨-, source, hsource, hfrom⟩ := exists_of_mem_eliminateUnits hr
  obtain ⟨-, origin, horigin, -⟩ := exists_of_mem_eliminateUnits hr'
  rw [hself] at hsource hfrom horigin
  -- The rule is not taken over, as its first owner would be mentioned by a unit rule.
  rcases hfrom with rfl | ⟨s, hs, hmentions⟩
  · exact h _ hsource hempty _ horigin hmem
  · exact h _ hsource hempty s hs hmentions

theorem epsilon_usefulPart (h : g.EpsilonIsolated) (hr : rule ∈ g.usefulPart.rules)
    (hempty : rule.rhs = .empty) : g.usefulPart.start? = some rule.lhs := by
  rw [usefulPart, start?_reachablePart]
  cases hstart : g.productivePart.start? with
  | none =>
    have hnone := start?_eq_none_iff.mp hstart
    have := reachablePart_rules_subset hr
    simp [hnone] at this
  | some start =>
    obtain ⟨hr, hreach⟩ := (mem_reachablePart hstart).mp hr
    rcases eq_or_exists_of_mem_reachableFrom hreach with heq | ⟨r, hr', -, hmem⟩
    · rw [heq]
    · exact absurd hmem (h rule (productivePart_rules_subset hr) hempty r
        (productivePart_rules_subset hr'))

/-! ## After binarizing -/

/-- Rules for the empty string are none of the new ones. -/
theorem mem_of_mem_binarize (hfree : g.IsChoiceFree) (hr : rule ∈ g.binarize.rules)
    (hempty : rule.rhs = .empty) : rule ∈ g.rules := by
  obtain ⟨origin, horigin, later, -, hr, -⟩ := exists_of_mem_binarize hr
  have hwf := g.wellFormed origin horigin
  rcases Rule.eq_or_isNormal_of_mem_binarize hwf (hfree origin horigin) hr with ⟨rfl, -⟩ | hnormal
  · exact horigin
  · rw [hempty] at hnormal
    cases hnormal

theorem normal_of_mem_binarize (hfree : g.IsChoiceFree) (hunit : ∀ rule ∈ g.rules, ¬rule.isUnit)
    (hr : rule ∈ g.binarize.rules) : rule.rhs = .empty ∨ rule.rhs.IsNormal := by
  obtain ⟨origin, horigin, later, -, hr, -⟩ := exists_of_mem_binarize hr
  have hwf := g.wellFormed origin horigin
  have hfree := hfree origin horigin
  rcases Rule.eq_or_isNormal_of_mem_binarize hwf hfree hr with ⟨rfl, hseq⟩ | hnormal
  · have hunit := hunit rule horigin
    obtain ⟨lhs, rhs⟩ := rule
    cases rhs with
    | terminal token => exact .inr (.terminal token)
    | nonterminal => simp [Rule.isUnit, Expr.nonterminal?] at hunit
    | empty => exact .inl rfl
    | seq => simp [Rule.isSequence, Expr.isSeq] at hseq
    | alt => simp at hfree
  · exact .inr hnormal

theorem epsilonIsolated_binarize (hfree : g.IsChoiceFree) (h : g.EpsilonIsolated) :
    g.binarize.EpsilonIsolated := by
  intro rule hr hempty r hr' hmem
  have hr := mem_of_mem_binarize hfree hr hempty
  obtain ⟨origin, horigin, later, hle, hr', -⟩ := exists_of_mem_binarize hr'
  apply h rule hr hempty origin horigin
  exact Rule.mem_nonterminals_of_mem_binarize (g.wellFormed origin horigin)
    (hle _ (has_names_lhs hr)) hr' hmem

theorem isNormal_binarize (hfree : g.IsChoiceFree) (hunit : ∀ rule ∈ g.rules, ¬rule.isUnit)
    (hisolated : g.EpsilonIsolated)
    (hepsilon : ∀ rule ∈ g.rules, rule.rhs = .empty → g.start? = some rule.lhs) :
    g.binarize.IsNormal where
  normal _ := normal_of_mem_binarize hfree hunit
  isolated := epsilonIsolated_binarize hfree hisolated
  epsilon rule hr hempty := by
    have hstart := hepsilon rule (mem_of_mem_binarize hfree hr hempty) hempty
    rcases (preserves_binarize (g := g)).start with hnil | heq
    · simp [hnil] at hr
    · exact heq.trans hstart

theorem isNormal_toCnf (a : Arithmetic) (g : Grammar) : (g.toCnf a).IsNormal := by
  have hisolated : (g.splitAlternatives.eliminateEpsilon a).eliminateUnits.EpsilonIsolated :=
    epsilonIsolated_eliminateUnits eliminateEpsilon_isChoiceFree epsilonIsolated_eliminateEpsilon
  have hsub : (g.splitAlternatives.eliminateEpsilon a).eliminateUnits.usefulPart.rules ⊆
      (g.splitAlternatives.eliminateEpsilon a).eliminateUnits.rules := usefulPart_rules_subset
  refine isNormal_binarize (fun rule hr => ?_) (fun rule hr => ?_) (fun rule hr hempty r hr' => ?_)
    fun rule hr => epsilon_usefulPart hisolated hr
  · exact eliminateUnits_isChoiceFree rule (hsub hr)
  · exact (exists_of_mem_eliminateUnits (hsub hr)).1
  · exact hisolated rule (hsub hr) hempty r (hsub hr')

/-! ## The normal form that a program finds -/

/-- Words have a bit for each nullable item of an alternative. -/
def Fits (a : Arithmetic) (g : Grammar) : Prop :=
  ∀ rule ∈ g.splitAlternatives.rules,
    a.HasBit (Expr.optionalCount g.splitAlternatives.primes rule.rhs.items)

instance (a : Arithmetic) (g : Grammar) : Decidable (g.Fits a) :=
  inferInstanceAs (Decidable (∀ rule ∈ g.splitAlternatives.rules, _))

/-- The program stops at an alternative that has too many nullable items. -/
def Overflows (a : Arithmetic) (g : Grammar) : Prop :=
  a.IsChecked ∧ ¬g.Fits a

theorem Fits.not_overflows (h : g.Fits a) : ¬g.Overflows a :=
  fun hover => hover.2 h

theorem eliminateEpsilon?_eq_none_iff : g.eliminateEpsilon? a = none ↔ g.Overflows a := by
  have hshift : (¬∀ rule ∈ g.splitAlternatives.rules,
      (a.shift? (Expr.optionalCount g.splitAlternatives.primes rule.rhs.items)).isSome) ↔
      g.Overflows a := by
    simp only [Option.isSome_iff_ne_none, ne_eq, Arithmetic.shift?_eq_none_iff, Overflows, Fits,
      not_forall, not_not, exists_prop, exists_and_left, and_left_comm]
  rw [← hshift, eliminateEpsilon?]
  simp only [List.all_eq_true, ite_eq_right_iff, reduceCtorEq, imp_false]

theorem eliminateEpsilon?_eq_some_iff {h : Grammar} :
    g.eliminateEpsilon? a = some h ↔ ¬g.Overflows a ∧ g.eliminateEpsilon a = h := by
  rw [← eliminateEpsilon?_eq_none_iff, eliminateEpsilon?]
  split <;> simp

theorem fits_splitAlternatives_iff : g.splitAlternatives.Fits a ↔ g.Fits a := by
  rw [Fits, Fits, splitAlternatives_eq_self splitAlternatives_isChoiceFree]

theorem overflows_splitAlternatives_iff : g.splitAlternatives.Overflows a ↔ g.Overflows a := by
  rw [Overflows, Overflows, fits_splitAlternatives_iff]

/-- The program stops just where an alternative has too many nullable items. -/
theorem toCnf?_eq_none_iff : g.toCnf? a = none ↔ g.Overflows a := by
  rw [toCnf?, Option.bind_eq_bind, Option.bind_eq_none_iff, ← overflows_splitAlternatives_iff,
    ← eliminateEpsilon?_eq_none_iff]
  simp [Option.eq_none_iff_forall_ne_some]

theorem toCnf?_eq_some_iff {cnf : Grammar} :
    g.toCnf? a = some cnf ↔ ¬g.Overflows a ∧ g.toCnf a = cnf := by
  rw [toCnf?, Option.bind_eq_bind, Option.bind_eq_some_iff, ← overflows_splitAlternatives_iff]
  constructor
  · intro h
    obtain ⟨positive, hpositive, hcnf⟩ := h
    obtain ⟨hover, rfl⟩ := eliminateEpsilon?_eq_some_iff.mp hpositive
    exact ⟨hover, Option.some.inj hcnf⟩
  · intro h
    obtain ⟨hover, rfl⟩ := h
    exact ⟨_, eliminateEpsilon?_eq_some_iff.mpr ⟨hover, rfl⟩, rfl⟩

theorem primedRules_eq
    (h : ∀ rule ∈ g.rules, a.HasBit (Expr.optionalCount g.primes rule.rhs.items)) :
    g.primedRules a = g.primedRules .unbounded := by
  have hplain : g.rules.flatMap (Rule.variants a g.primes) =
      g.rules.flatMap (Rule.variants .unbounded g.primes) :=
    List.flatMap_congr fun rule hr => by
      rw [Rule.variants, Rule.variants, Expr.variants_eq (h rule hr)]
  simp only [primedRules, Rule.withPrimes, hplain]

theorem Fits.toCnf_eq (h : g.Fits a) : g.toCnf a = g.toCnf .unbounded := by
  have hprimed := primedRules_eq (fits_splitAlternatives_iff.mpr h)
  simp only [toCnf, eliminateEpsilon, orphans, hprimed]

end Grammar

end ContextFree
