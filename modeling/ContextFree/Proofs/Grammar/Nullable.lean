import ContextFree.Proofs.Expr.Variants
import ContextFree.Proofs.Grammar.Useful

/-!
# Eliminating rules for the empty string

The closure of the nullable symbols consists of the symbols that derive the empty string
(`mem_nullable_iff`). With the optional items of all right-hand sides made explicit, plain symbols
derive no more than they did, however many of the variants are made (`languages_primedRules_le`).
If all of them are, plain symbols derive what they did and primed ones the same except the empty
string (`languages_primedRules`, `languages_prime`). Orphans derive nothing, so their rules are no
loss.
-/

namespace ContextFree

theorem nil_mem_list_prod_iff {α : Type} {ls : List (Language α)} :
    [] ∈ ls.prod ↔ ∀ l ∈ ls, [] ∈ l := by
  induction ls with
  | nil => simp
  | cons l ls ih =>
    rw [List.prod_cons, Language.mem_mul, List.forall_mem_cons, ← ih]
    constructor
    · intro h
      obtain ⟨u, hu, v, hv, huv⟩ := h
      obtain ⟨rfl, rfl⟩ := List.append_eq_nil_iff.mp huv
      exact ⟨hu, hv⟩
    · exact fun ⟨hl, hls⟩ => ⟨[], hl, [], hls, rfl⟩

theorem lookup_eq_some_iff_mem {α β : Type} [BEq α] [LawfulBEq α] {l : List (α × β)} {a : α} {b : β}
    (h : (l.map Prod.fst).Nodup) : l.lookup a = some b ↔ (a, b) ∈ l := by
  induction l with
  | nil => simp
  | cons pair l ih =>
    obtain ⟨hnot, h⟩ := List.nodup_cons.mp h
    rw [List.lookup_cons, List.mem_cons]
    split
    · next heq =>
      obtain rfl := eq_of_beq heq
      refine ⟨fun hb => .inl (by rw [← Option.some.inj hb]), ?_⟩
      intro hmem
      rcases hmem with heq | hmem
      · rw [← heq]
      · exact absurd (List.mem_map_of_mem hmem) hnot
    · next hne =>
      rw [ih h, or_iff_right]
      rintro rfl
      simp at hne

namespace Expr

variable {I J : Valuation} {e : Expr}

/-! ## Nullable right-hand sides -/

theorem nil_mem_denote_iff (hfree : e.isChoiceFree) :
    [] ∈ e.denote spell I ↔ ∀ atom ∈ e.atoms, [] ∈ atom.denote spell I := by
  induction e with
  | terminal | nonterminal | empty => simp
  | seq items ih =>
    have hitems := List.all_eq_true.mp (isChoiceFree_seq items ▸ hfree)
    simp only [denote_seq, nil_mem_list_prod_iff, List.forall_mem_map, atoms_seq, List.mem_flatMap,
      forall_exists_index, and_imp]
    exact ⟨fun h atom item hi => (ih item hi (hitems item hi)).mp (h item hi) atom,
      fun h item hi => (ih item hi (hitems item hi)).mpr fun atom => h atom item hi⟩
  | alt => simp at hfree

theorem isNullableBy_iff {known : List Nonterminal} : e.isNullableBy known ↔
    ∀ atom ∈ e.atoms, atom = .empty ∨ ∃ symbol ∈ known, atom = .nonterminal symbol := by
  rw [isNullableBy, List.all_eq_true]
  refine forall₂_congr fun atom ha => ?_
  have := isAtom_of_mem_atoms ha
  cases atom <;> simp_all [isAtom]

theorem concat_eq_empty {es : List Expr} (h : ∀ e ∈ es, e = .empty) : concat es = .empty := by
  have hflat : es.flatMap factors = [] :=
    List.flatMap_eq_nil_iff.mpr fun e he => by rw [h e he]; rfl
  rw [concat, hflat]
  rfl

end Expr

namespace Grammar

variable {a : Arithmetic} {g : Grammar} {symbol primed : Nonterminal} {rule : Rule}

/-! ## Nullable symbols -/

theorem mem_nullable_iff (hfree : g.IsChoiceFree) :
    symbol ∈ g.nullable ↔ [] ∈ g.languages symbol := by
  constructor
  · intro hs
    refine g.nullableStep.closure_induction (p := fun s => [] ∈ g.languages s) (fun s hs => ?_)
      (fun known frontier _ hp s hs => ?_) symbol hs
    · obtain ⟨rule, hr, rfl⟩ := List.mem_map.mp hs
      obtain ⟨hr, hepsilon⟩ := List.mem_filter.mp hr
      refine holds_languages hr ?_
      rw [of_decide_eq_true hepsilon]
      rfl
    · obtain ⟨rule, hr, rfl⟩ := List.mem_map.mp hs
      obtain ⟨hr, hnullable⟩ := List.mem_filter.mp hr
      refine holds_languages hr ((Expr.nil_mem_denote_iff (hfree rule hr)).mpr fun atom ha => ?_)
      rcases Expr.isNullableBy_iff.mp hnullable atom ha with rfl | ⟨s, hs, rfl⟩
      · rfl
      · exact hp s hs
  · intro hnil
    have hle := languages_le (g := g) (I := fun symbol => {w | w = [] → symbol ∈ g.nullable}) ?_
      symbol
    · exact hle hnil rfl
    rintro rule hr w hw rfl
    refine g.nullableStep.next_closure_subset (fun _ _ _ => rfl) [] ?_
    refine List.mem_map.mpr ⟨rule, List.mem_filter.mpr ⟨hr, ?_⟩, rfl⟩
    apply Expr.isNullableBy_iff.mpr
    intro atom ha
    have hatom := (Expr.nil_mem_denote_iff (hfree rule hr)).mp hw atom ha
    have := Expr.isAtom_of_mem_atoms ha
    cases atom with
    | terminal token => exact absurd (mem_spell.mp hatom) (by simp)
    | nonterminal s => exact .inr ⟨s, hatom rfl, rfl⟩
    | empty => exact .inl rfl
    | seq | alt => simp [Expr.isAtom] at this

/-! ## Primed symbols -/

theorem mem_optionalSymbols : symbol ∈ g.optionalSymbols ↔
    symbol ∈ g.nullable ∧ ∃ rule ∈ g.rules, .nonterminal symbol ∈ rule.rhs.items := by
  simp [optionalSymbols, and_comm]

theorem map_fst_primes : g.primes.map Prod.fst = g.optionalSymbols :=
  List.map_fst_zip (by simp)

theorem map_snd_primes :
    g.primes.map Prod.snd = (g.names.primedAll g.optionalSymbols).1 :=
  List.map_snd_zip (by simp)

theorem lookup_primes_iff :
    g.primes.lookup symbol = some primed ↔ (symbol, primed) ∈ g.primes := by
  refine lookup_eq_some_iff_mem ?_
  rw [map_fst_primes]
  exact nodup_eraseDups _

theorem mem_optionalSymbols_of_mem_primes (h : (symbol, primed) ∈ g.primes) :
    symbol ∈ g.optionalSymbols :=
  map_fst_primes ▸ List.mem_map_of_mem (f := Prod.fst) h

theorem exists_mem_primes (h : symbol ∈ g.optionalSymbols) :
    ∃ primed, (symbol, primed) ∈ g.primes := by
  rw [← map_fst_primes] at h
  obtain ⟨⟨_, primed⟩, hmem, rfl⟩ := List.mem_map.mp h
  exact ⟨primed, hmem⟩

/-- A nullable symbol has a prime where it occurs as an item. -/
theorem exists_primeFor (hnull : symbol ∈ g.nullable) (hr : rule ∈ g.rules)
    (hitem : .nonterminal symbol ∈ rule.rhs.items) :
    ∃ primed, Expr.primeFor g.primes (.nonterminal symbol) = some primed := by
  obtain ⟨primed, hp⟩ := exists_mem_primes (mem_optionalSymbols.mpr ⟨hnull, rule, hr, hitem⟩)
  exact ⟨primed, Expr.primeFor_eq_some_iff.mpr ⟨symbol, rfl, lookup_primes_iff.mpr hp⟩⟩

theorem prime_notHas (h : (symbol, primed) ∈ g.primes) : ¬g.names.Has primed :=
  Names.primedAll_notHas (map_snd_primes ▸ List.mem_map_of_mem (f := Prod.snd) h)

/-- The languages that the primed symbols are meant to have. -/
theorem exists_agree_primes : ∃ J, g.names.Agree g.languages J ∧
    ∀ symbol primed, (symbol, primed) ∈ g.primes → J primed = g.languages symbol - 1 := by
  have hnew : ∀ symbol ∈ (g.names.primedAll g.optionalSymbols).1, ¬g.names.Has symbol :=
    fun _ => Names.primedAll_notHas
  obtain ⟨J, hJ, hmap⟩ := Names.exists_agree Names.primedAll_nodup hnew
    (g.optionalSymbols.map fun s => g.languages s - 1) (by simp) g.languages
  refine ⟨J, hJ, fun symbol primed h => ?_⟩
  rw [← map_snd_primes, ← map_fst_primes, List.map_map, List.map_map] at hmap
  exact List.map_inj_left.mp hmap _ h

theorem mem_nullable_of_mem_primes (h : (symbol, primed) ∈ g.primes) : symbol ∈ g.nullable :=
  (mem_optionalSymbols.mp (mem_optionalSymbols_of_mem_primes h)).1

/-! ## The rules with optional items made explicit -/

theorem mem_primedRules : rule ∈ g.primedRules a ↔
    (∃ plain ∈ g.rules, ∃ items ∈ Expr.variants a g.primes plain.rhs.items,
      rule = ⟨plain.lhs, .concat items⟩) ∨
    ∃ primed, ∃ plain ∈ g.rules, (plain.lhs, primed) ∈ g.primes ∧
      ∃ items ∈ Expr.variants a g.primes plain.rhs.items, Expr.concat items ≠ .empty ∧
        rule = ⟨primed, .concat items⟩ := by
  have hplain (r : Rule) : r ∈ g.rules.flatMap (Rule.variants a g.primes) ↔
      ∃ plain ∈ g.rules, ∃ items ∈ Expr.variants a g.primes plain.rhs.items,
        r = ⟨plain.lhs, .concat items⟩ := by
    simp [Rule.variants, eq_comm]
  rw [primedRules, Rule.withPrimes, List.mem_append, hplain]
  refine or_congr_right ?_
  simp only [Rule.primedCopies, List.mem_flatMap, List.mem_map, List.mem_filter, hplain,
    Bool.and_eq_true, decide_eq_true_eq, Bool.not_eq_true', Rule.isEpsilon, decide_eq_false_iff_not]
  constructor
  · intro h
    obtain ⟨⟨symbol, primed⟩, hmem, _, ⟨⟨plain, hr, items, hitems, rfl⟩, rfl, hne⟩, rfl⟩ := h
    exact ⟨primed, plain, hr, hmem, items, hitems, hne, rfl⟩
  · intro h
    obtain ⟨primed, plain, hr, hmem, items, hitems, hne, rfl⟩ := h
    exact ⟨_, hmem, _, ⟨⟨plain, hr, items, hitems, rfl⟩, rfl, hne⟩, rfl⟩

/-- However words are added and shifted, the rules are copies of old ones with variants of their
items. Those of primed symbols are none for the empty string. -/
theorem exists_variant_of_mem_primedRules (hr : rule ∈ g.primedRules a) :
    ∃ plain ∈ g.rules, ∃ items, Expr.IsVariant g.primes plain.rhs.items items ∧
      rule.rhs = .concat items ∧
      (rule.lhs = plain.lhs ∨ (plain.lhs, rule.lhs) ∈ g.primes ∧ rule.rhs ≠ .empty) := by
  rcases mem_primedRules.mp hr with
    ⟨plain, hplain, items, h, rfl⟩ | ⟨primed, plain, hplain, hp, items, h, hne, rfl⟩
  · exact ⟨plain, hplain, items, Expr.isVariant_of_mem_variants h, rfl, .inl rfl⟩
  · exact ⟨plain, hplain, items, Expr.isVariant_of_mem_variants h, rfl, .inr ⟨hp, hne⟩⟩

variable {items : List Expr} {J : Valuation}

/-- Without choices, the items of a variant are atoms. -/
theorem isAtom_of_isVariant (hfree : g.IsChoiceFree) (hr : rule ∈ g.rules)
    (h : Expr.IsVariant g.primes rule.rhs.items items) {item : Expr} (hi : item ∈ items) :
    item.isAtom := by
  rcases h.eq_prime_or hi with ⟨_, _, -, rfl⟩ | ⟨hi, -⟩
  · rfl
  · exact (g.wellFormed rule hr).isAtom_of_mem_items (hfree rule hr) hi

theorem isChoiceFree_of_mem_primedRules (hfree : g.IsChoiceFree) :
    ∀ rule ∈ g.primedRules a, rule.rhs.isChoiceFree := by
  intro rule hrule
  obtain ⟨plain, hr, items, h, hrhs, -⟩ := exists_variant_of_mem_primedRules hrule
  rw [hrhs]
  refine Expr.isChoiceFree_concat fun item hi => ?_
  have := isAtom_of_isVariant hfree hr h hi
  cases item <;> simp_all [Expr.isAtom]

/-- The items that are kept contribute something, apart from an explicit empty string. -/
theorem eq_empty_of_nil_mem (hfree : g.IsChoiceFree) (hJ : g.names.Agree g.languages J)
    (hprimes : ∀ symbol primed, (symbol, primed) ∈ g.primes → J primed = g.languages symbol - 1)
    (hr : rule ∈ g.rules) (h : Expr.IsVariant g.primes rule.rhs.items items) {item : Expr}
    (hi : item ∈ items) (hnil : [] ∈ item.denote spell J) : item = .empty := by
  rcases h.eq_prime_or hi with ⟨symbol, primed, hlookup, rfl⟩ | ⟨hitem, hprime⟩
  · rw [Expr.denote_nonterminal, hprimes symbol primed (lookup_primes_iff.mp hlookup)] at hnil
    exact absurd rfl hnil.2
  · have hatom := (g.wellFormed rule hr).isAtom_of_mem_items (hfree rule hr) hitem
    cases item with
    | terminal => simp at hnil
    | empty => rfl
    | seq | alt => simp [Expr.isAtom] at hatom
    | nonterminal symbol =>
      have hhas : g.names.Has symbol :=
        covers_names_rhs hr symbol (Expr.mem_nonterminals_of_mem_items hitem
          (by simp [Expr.mem_nonterminals]))
      rw [Expr.denote_nonterminal, hJ symbol hhas, ← mem_nullable_iff hfree] at hnil
      obtain ⟨primed, hsome⟩ := exists_primeFor hnil hr hitem
      rw [hsome] at hprime
      cases hprime

theorem holds_primedRules (hfree : g.IsChoiceFree) (hJ : g.names.Agree g.languages J)
    (hprimes : ∀ symbol primed, (symbol, primed) ∈ g.primes → J primed = g.languages symbol - 1) :
    ∀ rule ∈ g.primedRules a, rule.Holds J := by
  intro rule hrule
  obtain ⟨plain, hr, items, h, hrhs, hlhs⟩ := exists_variant_of_mem_primedRules hrule
  have hplain : (Expr.concat items).denote spell J ≤ g.languages plain.lhs := by
    rw [Expr.denote_concat]
    refine (h.prod_denote_le (I := g.languages) (fun item hi => ?_)
      fun symbol primed hlookup => ?_).trans ?_
    · refine (hJ.denote_eq fun symbol hs => covers_names_rhs hr symbol ?_).le
      exact Expr.mem_nonterminals_of_mem_items hi hs
    · have hp := lookup_primes_iff.mp hlookup
      rw [hprimes symbol primed hp]
      exact ⟨fun w hw => hw.1, (mem_nullable_iff hfree).mp (mem_nullable_of_mem_primes hp)⟩
    · rw [Expr.prod_denote_items]
      exact holds_languages hr
  rw [Rule.Holds, hrhs]
  rcases hlhs with hlhs | ⟨hp, hne⟩
  · rw [hlhs, hJ _ (has_names_lhs hr)]
    exact hplain
  · rw [hprimes _ _ hp]
    rintro w hw
    refine ⟨hplain hw, ?_⟩
    rintro rfl
    have hall : [] ∈ (items.map (Expr.denote spell J)).prod := by
      rw [← Expr.denote_concat]
      exact hw
    rw [nil_mem_list_prod_iff, List.forall_mem_map] at hall
    exact hne (hrhs.trans (Expr.concat_eq_empty fun item hi =>
      eq_empty_of_nil_mem hfree hJ hprimes hr h hi (hall item hi)))

theorem languages_primedRules_le
    (wellFormed : ∀ rule ∈ g.primedRules a, rule.rhs.WellFormed) (hfree : g.IsChoiceFree)
    (hs : g.names.Has symbol) :
    (ofRules (g.primedRules a) wellFormed).languages symbol ≤ g.languages symbol := by
  obtain ⟨J, hJ, hprimes⟩ := g.exists_agree_primes
  rw [← hJ symbol hs]
  exact languages_ofRules_le wellFormed (holds_primedRules hfree hJ hprimes) symbol

/-- What each symbol derives in `h`, if its prime in `g` derives the same but the empty string. -/
def languagesWithPrimes (g h : Grammar) : Valuation :=
  fun symbol => {w | w ∈ h.languages symbol ∧
    ∀ primed, (symbol, primed) ∈ g.primes → w ≠ [] → w ∈ h.languages primed}

/-! ## With enough bits for all masks -/

section

variable (wellFormed : ∀ rule ∈ g.primedRules .unbounded, rule.rhs.WellFormed)

/-- What a symbol derives is still derived by itself, and by its prime unless it is empty. The two
need each other for the items of a right-hand side. -/
theorem languages_le_languagesWithPrimes (symbol : Nonterminal) : g.languages symbol ≤
    g.languagesWithPrimes (ofRules (g.primedRules .unbounded) wellFormed) symbol := by
  refine languages_le (fun rule hr w hw => ?_) symbol
  rw [← Expr.prod_denote_items] at hw
  obtain ⟨items, h, hitems⟩ := Expr.exists_isVariant
    (J := (ofRules (g.primedRules .unbounded) wellFormed).languages)
    (fun item _ => Expr.denote_mono fun _ _ _ hu => hu.1)
    (fun s primed hlookup u hu => hu.2 primed (lookup_primes_iff.mp hlookup)) hw
  rw [← Expr.denote_concat] at hitems
  have hvariant := Expr.mem_variants_iff.mpr h
  have hplain : ⟨rule.lhs, .concat items⟩ ∈ g.primedRules .unbounded :=
    mem_primedRules.mpr (.inl ⟨rule, hr, items, hvariant, rfl⟩)
  refine ⟨holds_ofRules wellFormed hplain hitems, fun primed hp hne => ?_⟩
  have hconcat : Expr.concat items ≠ .empty := fun heq => hne (by simpa [heq] using hitems)
  have hprimed : ⟨primed, .concat items⟩ ∈ g.primedRules .unbounded :=
    mem_primedRules.mpr (.inr ⟨primed, rule, hr, hp, items, hvariant, hconcat, rfl⟩)
  exact holds_ofRules wellFormed hprimed hitems

theorem languages_primedRules (hfree : g.IsChoiceFree) (hs : g.names.Has symbol) :
    (ofRules (g.primedRules .unbounded) wellFormed).languages symbol = g.languages symbol :=
  le_antisymm (languages_primedRules_le wellFormed hfree hs)
    fun _ hw => (languages_le_languagesWithPrimes wellFormed symbol hw).1

theorem languages_prime (hfree : g.IsChoiceFree) (hp : (symbol, primed) ∈ g.primes) :
    (ofRules (g.primedRules .unbounded) wellFormed).languages primed =
      g.languages symbol - 1 := by
  obtain ⟨J, hJ, hprimes⟩ := g.exists_agree_primes
  refine le_antisymm ?_ fun w hw =>
    (languages_le_languagesWithPrimes wellFormed symbol hw.1).2 primed hp fun h => hw.2 h
  rw [← hprimes symbol primed hp]
  exact languages_ofRules_le wellFormed (holds_primedRules hfree hJ hprimes) primed

end

/-! ## Orphans -/

section

variable {rules : List Rule} {symbols : List Nonterminal}
  (wellFormed : ∀ rule ∈ rules, rule.rhs.WellFormed)

theorem not_mem_languages_of_mem_orphans (hfree : ∀ rule ∈ rules, rule.rhs.isChoiceFree) :
    ∀ orphan ∈ Rule.orphans rules symbols,
      ∀ w, w ∉ (ofRules rules wellFormed).languages orphan := by
  refine (Rule.orphanStep rules symbols).closure_induction (fun orphan ho w hw => ?_)
    fun known _ _ hknown orphan ho w hw => ?_
  · obtain ⟨-, hnone⟩ := List.mem_filter.mp ho
    obtain ⟨rule, hr, hlhs, -⟩ := mem_languages_iff.mp hw
    simp only [Bool.not_eq_true', List.any_eq_false, decide_eq_true_eq] at hnone
    exact hnone rule (mem_ofRules.mp hr) hlhs
  · obtain ⟨rule, hr, hlhs, hrhs⟩ := mem_languages_iff.mp hw
    obtain ⟨-, hall⟩ := List.mem_filter.mp ho
    have hr := mem_ofRules.mp hr
    have hany := List.all_eq_true.mp hall rule (List.mem_filter.mpr ⟨hr, decide_eq_true hlhs⟩)
    obtain ⟨other, hother, hmentions⟩ := List.any_eq_true.mp hany
    obtain ⟨u, hu⟩ := Expr.exists_mem_of_mem_denote (hfree rule hr) hrhs other
      (Expr.mem_nonterminals.mpr (Expr.mentions_iff.mp hmentions))
    exact hknown other hother u hu

theorem mem_avoiding {rule : Rule} : rule ∈ Rule.avoiding symbols rules ↔
    rule ∈ rules ∧ ∀ symbol ∈ symbols, rule.lhs ≠ symbol ∧ symbol ∉ rule.rhs.nonterminals := by
  simp [Rule.avoiding, Expr.mem_nonterminals]

/-- Without choices, symbols that derive nothing can be avoided. -/
theorem languages_avoiding (hfree : ∀ rule ∈ rules, rule.rhs.isChoiceFree)
    (hnone : ∀ symbol ∈ symbols, ∀ w, w ∉ (ofRules rules wellFormed).languages symbol)
    (wellFormed' : ∀ rule ∈ Rule.avoiding symbols rules, rule.rhs.WellFormed) :
    (ofRules (Rule.avoiding symbols rules) wellFormed').languages =
      (ofRules rules wellFormed).languages := by
  have hle (symbol : Nonterminal) :
      (ofRules (Rule.avoiding symbols rules) wellFormed').languages symbol ≤
        (ofRules rules wellFormed).languages symbol :=
    languages_ofRules_mono wellFormed' (fun _ hr => mem_ofRules.mpr (mem_avoiding.mp hr).1) symbol
  refine funext fun symbol => le_antisymm (hle symbol)
    (languages_ofRules_le wellFormed (fun rule hr w hw => ?_) symbol)
  -- A rule that takes part in a derivation neither defines nor mentions such a symbol.
  have havoid : rule ∈ Rule.avoiding symbols rules := by
    refine mem_avoiding.mpr ⟨hr, fun other hother => ⟨?_, fun hmem => ?_⟩⟩
    · rintro rfl
      have hderived := Expr.denote_mono (fun s _ => hle s) hw
      exact hnone _ hother w (holds_ofRules wellFormed hr hderived)
    · obtain ⟨u, hu⟩ := Expr.exists_mem_of_mem_denote (hfree rule hr) hw other hmem
      exact hnone other hother u (hle other hu)
  exact holds_ofRules wellFormed' havoid hw

end

theorem languages_avoiding_orphans (hfree : g.IsChoiceFree) (hs : g.names.Has symbol)
    (wellFormed : ∀ rule ∈ Rule.avoiding (g.orphans .unbounded) (g.primedRules .unbounded),
      rule.rhs.WellFormed) :
    (ofRules (Rule.avoiding (g.orphans .unbounded) (g.primedRules .unbounded))
      wellFormed).languages symbol = g.languages symbol := by
  have hprimed : ∀ rule ∈ g.primedRules .unbounded, rule.rhs.WellFormed :=
    Rule.wellFormed_of_mem_withPrimes g.wellFormed
  have hfree' := isChoiceFree_of_mem_primedRules (a := .unbounded) hfree
  have hnone : ∀ orphan ∈ g.orphans .unbounded, ∀ w,
      w ∉ (ofRules _ hprimed).languages orphan :=
    not_mem_languages_of_mem_orphans hprimed hfree'
  rw [languages_avoiding hprimed hfree' hnone, languages_primedRules hprimed hfree hs]

theorem preserves_eliminateEpsilon : (g.eliminateEpsilon .unbounded).Preserves g := by
  refine Preserves.trans (preserves_rooted _ (fun hrules => ?_) fun start hstart => ?_)
    preserves_splitAlternatives
  · simp [Rule.avoiding, primedRules, Rule.withPrimes, Rule.primedCopies, hrules]
  · exact languages_avoiding_orphans splitAlternatives_isChoiceFree (has_names_start hstart) _

/-! ## The rules that are left -/

theorem mem_primedRules_of_mem_eliminateEpsilon (hr : rule ∈ (g.eliminateEpsilon a).rules) :
    rule ∈ g.splitAlternatives.primedRules a :=
  (mem_avoiding.mp (rooted_rules_subset _ hr)).1

theorem eliminateEpsilon_isChoiceFree : (g.eliminateEpsilon a).IsChoiceFree :=
  fun rule hr => isChoiceFree_of_mem_primedRules splitAlternatives_isChoiceFree rule
    (mem_primedRules_of_mem_eliminateEpsilon hr)

end Grammar

end ContextFree
