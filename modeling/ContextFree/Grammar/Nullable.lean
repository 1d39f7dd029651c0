import ContextFree.Arithmetic
import ContextFree.Closure
import ContextFree.Grammar.Choice

/-!
# Rules for the empty string

A nonterminal is nullable when it derives the empty string. Eliminating the rules for the empty
string makes every nullable item of a right-hand side optional: a copy of the rule without it stands
beside the copy with a primed symbol, which derives what the plain one does except the empty string.
A plain nonterminal keeps its own rule for the empty string, but no right-hand side mentions it.
-/

namespace ContextFree

namespace Expr

/-- Whether the empty string is derivable from `e` once it is from the `known` symbols. -/
def isNullableBy (known : List Nonterminal) (e : Expr) : Bool :=
  e.atoms.all fun
    | .empty => true
    | .nonterminal symbol => known.contains symbol
    | _ => false

/-- The primed symbol of an item, if `primes` makes it optional. -/
def primeFor (primes : List (Nonterminal × Nonterminal)) (item : Expr) : Option Nonterminal :=
  item.nonterminal?.bind fun symbol => primes.lookup symbol

/-- How many of the items are optional. -/
def optionalCount (primes : List (Nonterminal × Nonterminal)) (items : List Expr) : Nat :=
  items.countP fun item => (primeFor primes item).isSome

/-- The items without the optional ones whose bit is set in `mask`, and with primed symbols for the
other optional ones. The first optional item has bit `index`, and those after it the bits that
follow. -/
def keep (a : Arithmetic) (primes : List (Nonterminal × Nonterminal)) (mask : Nat) :
    (index : Nat) → List Expr → List Expr
  | _, [] => []
  | index, item :: items =>
    match primeFor primes item with
    | some primed =>
      let rest := keep a primes mask (index + 1) items
      if mask.testBit (a.shift index) then rest else .nonterminal primed :: rest
    | none => item :: keep a primes mask index items

/-- The ways to keep or leave out optional items, one for each mask of as many bits as there are
such items. There are fewer if words have fewer bits than that. -/
def variants (a : Arithmetic) (primes : List (Nonterminal × Nonterminal)) (items : List Expr) :
    List (List Expr) :=
  (List.range (1 <<< a.shift (optionalCount primes items))).map fun mask =>
    keep a primes mask 0 items

theorem wellFormed_of_mem_keep {a : Arithmetic} {primes : List (Nonterminal × Nonterminal)}
    {mask index : Nat} {items : List Expr} (h : ∀ item ∈ items, item.WellFormed) :
    ∀ item ∈ keep a primes mask index items, item.WellFormed := by
  induction items generalizing index with
  | nil => simp [keep]
  | cons item items ih =>
    obtain ⟨hitem, hitems⟩ := List.forall_mem_cons.mp h
    rw [keep]
    split
    · split
      · exact ih hitems
      · exact List.forall_mem_cons.mpr ⟨.nonterminal _, ih hitems⟩
    · exact List.forall_mem_cons.mpr ⟨hitem, ih hitems⟩

theorem wellFormed_of_mem_variants {a : Arithmetic} {primes : List (Nonterminal × Nonterminal)}
    {items : List Expr} (h : ∀ item ∈ items, item.WellFormed) :
    ∀ variant ∈ variants a primes items, ∀ item ∈ variant, item.WellFormed := by
  intro variant hv
  obtain ⟨mask, -, rfl⟩ := List.mem_map.mp hv
  exact wellFormed_of_mem_keep h

end Expr

namespace Rule

/-- The copies of a rule with the ways to keep or leave out its optional items. -/
def variants (a : Arithmetic) (primes : List (Nonterminal × Nonterminal)) (rule : Rule) :
    List Rule :=
  (Expr.variants a primes rule.rhs.items).map fun items => ⟨rule.lhs, .concat items⟩

/-- For each primed symbol, the rules of its plain symbol other than the one for the empty
string. -/
def primedCopies (primes : List (Nonterminal × Nonterminal)) (rules : List Rule) : List Rule :=
  primes.flatMap fun pair =>
    (rules.filter fun rule => decide (rule.lhs = pair.1) && !rule.isEpsilon).map fun rule =>
      ⟨pair.2, rule.rhs⟩

/-- The rules with optional items made explicit, and after them the rules for primed symbols. -/
def withPrimes (a : Arithmetic) (primes : List (Nonterminal × Nonterminal)) (rules : List Rule) :
    List Rule :=
  let plain := rules.flatMap (Rule.variants a primes)
  plain ++ primedCopies primes plain

/-- An orphan is a symbol none of whose rules gets by without another orphan. -/
def orphanStep (rules : List Rule) (symbols : List Nonterminal) : Step Nonterminal where
  next known _ := symbols.filter fun symbol =>
    (rules.filter fun rule => decide (rule.lhs = symbol)).all fun rule =>
      known.any fun orphan => rule.rhs.mentions (.nonterminal orphan)
  domain := symbols
  next_subset _ _ _ h := (List.mem_filter.mp h).1

/-- The symbols among `symbols` without any rule. -/
def withoutRules (rules : List Rule) (symbols : List Nonterminal) : List Nonterminal :=
  symbols.filter fun symbol => !rules.any fun rule => decide (rule.lhs = symbol)

/-- The symbols among `symbols` that derive nothing but by way of each other. -/
def orphans (rules : List Rule) (symbols : List Nonterminal) : List Nonterminal :=
  (orphanStep rules symbols).closure (withoutRules rules symbols)

/-- The rules that neither define nor mention one of the symbols. -/
def avoiding (symbols : List Nonterminal) (rules : List Rule) : List Rule :=
  rules.filter fun rule => !symbols.any fun symbol =>
    decide (rule.lhs = symbol) || rule.rhs.mentions (.nonterminal symbol)

theorem wellFormed_of_mem_withPrimes {a : Arithmetic} {primes : List (Nonterminal × Nonterminal)}
    {rules : List Rule} (h : ∀ rule ∈ rules, rule.rhs.WellFormed) :
    ∀ rule ∈ withPrimes a primes rules, rule.rhs.WellFormed := by
  have plain : ∀ rule ∈ rules.flatMap (Rule.variants a primes), rule.rhs.WellFormed := by
    intro variant hv
    obtain ⟨rule, hrule, hv⟩ := List.mem_flatMap.mp hv
    obtain ⟨items, hitems, rfl⟩ := List.mem_map.mp hv
    exact Expr.wellFormed_concat (Expr.wellFormed_of_mem_variants
      (fun item hi => (h rule hrule).of_mem_items hi) items hitems)
  intro rule hr
  rcases List.mem_append.mp hr with hr | hr
  · exact plain rule hr
  · obtain ⟨pair, -, hr⟩ := List.mem_flatMap.mp hr
    obtain ⟨copied, hc, rfl⟩ := List.mem_map.mp hr
    exact plain copied (List.mem_filter.mp hc).1

end Rule

namespace Grammar

/-- A nonterminal is nullable when one of its rules has nothing but nullable parts. -/
def nullableStep (g : Grammar) : Step Nonterminal where
  next known _ := (g.rules.filter fun rule => rule.rhs.isNullableBy known).map Rule.lhs
  domain := g.rules.map Rule.lhs
  next_subset _ _ _ h := by
    obtain ⟨rule, hr, rfl⟩ := List.mem_map.mp h
    exact List.mem_map_of_mem (List.mem_filter.mp hr).1

/-- The nonterminals with a rule for the empty string. -/
def directlyNullable (g : Grammar) : List Nonterminal :=
  (g.rules.filter Rule.isEpsilon).map Rule.lhs

/-- The nonterminals that derive the empty string. -/
def nullable (g : Grammar) : List Nonterminal :=
  g.nullableStep.closure g.directlyNullable

/-- The nullable nonterminals that are items of a right-hand side, in order of appearance. -/
def optionalSymbols (g : Grammar) : List Nonterminal :=
  let nullable := g.nullable
  ((g.rules.flatMap fun rule => rule.rhs.items.filterMap Expr.nonterminal?).filter
    fun symbol => nullable.contains symbol).eraseDups

/-- The optional symbols, each with a new primed symbol. -/
def primes (g : Grammar) : List (Nonterminal × Nonterminal) :=
  let symbols := g.optionalSymbols
  symbols.zip (g.names.primedAll symbols).1

/-- The rules of a grammar without choices after its nullable items are made optional, those of
orphaned primed symbols included. -/
def primedRules (a : Arithmetic) (g : Grammar) : List Rule :=
  Rule.withPrimes a g.primes g.rules

/-- The primed symbols that derive nothing. -/
def orphans (a : Arithmetic) (g : Grammar) : List Nonterminal :=
  Rule.orphans (g.primedRules a) (g.primes.map Prod.snd)

/-- The grammar with one rule per alternative and no nullable nonterminal on a right-hand side. -/
def eliminateEpsilon (a : Arithmetic) (g : Grammar) : Grammar :=
  let split := g.splitAlternatives
  rooted split.start? (Rule.avoiding (split.orphans a) (split.primedRules a)) fun rule h =>
    Rule.wellFormed_of_mem_withPrimes split.wellFormed rule (List.mem_filter.mp h).1

/-- Eliminates the rules for the empty string, unless the program stops because an alternative has
too many nullable items for a mask of them. -/
def eliminateEpsilon? (a : Arithmetic) (g : Grammar) : Option Grammar :=
  let split := g.splitAlternatives
  if split.rules.all fun rule =>
      (a.shift? (Expr.optionalCount split.primes rule.rhs.items)).isSome then
    some (g.eliminateEpsilon a)
  else none

end Grammar

end ContextFree
