import ContextFree.Grammar.Language
import ContextFree.Proofs.Expr.Denotation

/-!
# The languages of the nonterminals

A valuation satisfies a rule when the language of the left-hand side has room for what the
right-hand side denotes. The languages that a grammar gives to its nonterminals are the least
valuation that satisfies all of its rules (`Grammar.holds_languages`, `Grammar.languages_le`). The
inclusions between languages before and after a transformation all come from this: it is enough to
find a valuation that satisfies the rules of one side and is bounded by the languages of the other.
-/

namespace ContextFree

/-- What the right-hand side denotes belongs to the language of the left-hand side. -/
def Rule.Holds (I : Valuation) (rule : Rule) : Prop :=
  rule.rhs.denote spell I ≤ I rule.lhs

namespace Grammar

variable {g h : Grammar}

/-- The token lists that each nonterminal derives. -/
def languages (g : Grammar) : Valuation :=
  fun symbol => {w | g.Derives (.nonterminal symbol) w}

theorem mem_languages {symbol : Nonterminal} {w : List Token} :
    w ∈ g.languages symbol ↔ g.Derives (.nonterminal symbol) w :=
  Iff.rfl

theorem Derives.mem_denote {I : Valuation} (hI : ∀ rule ∈ g.rules, rule.Holds I) {e : Expr}
    {w : List Token} (h : g.Derives e w) : w ∈ e.denote spell I := by
  induction h with
  | terminal | empty | nil => rfl
  | nonterminal mem _ ih => exact hI _ mem ih
  | cons _ _ ihe ihes => exact Language.append_mem_mul ihe ihes
  | alt mem _ ih => exact Expr.mem_denote_alt.mpr ⟨_, mem, ih⟩

theorem derives_of_mem_denote {e : Expr} {w : List Token} (h : w ∈ e.denote spell g.languages) :
    g.Derives e w := by
  induction e generalizing w with
  | terminal token => exact derives_terminal_iff.mpr h
  | nonterminal symbol => exact h
  | empty => exact derives_empty_iff.mpr h
  | seq items ih =>
    induction items generalizing w with
    | nil => exact derives_nil_iff.mpr h
    | cons e es ihes =>
      obtain ⟨u, hu, v, hv, rfl⟩ := Language.mem_mul.mp h
      obtain ⟨ihe, ih⟩ := List.forall_mem_cons.mp ih
      exact .cons (ihe hu) (ihes ih hv)
  | alt alternatives ih =>
    obtain ⟨e, he, h⟩ := Expr.mem_denote_alt.mp h
    exact .alt he (ih e he h)

/-- The rules hold of what the nonterminals derive. -/
theorem holds_languages {rule : Rule} (h : rule ∈ g.rules) : rule.Holds g.languages :=
  fun _ hw => .nonterminal h (derives_of_mem_denote hw)

/-- The nonterminals derive no more than any valuation allows of which the rules hold. -/
theorem languages_le {I : Valuation} (hI : ∀ rule ∈ g.rules, rule.Holds I) (symbol : Nonterminal) :
    g.languages symbol ≤ I symbol :=
  fun _ hw => hw.mem_denote hI

theorem derives_iff_mem_denote {e : Expr} {w : List Token} :
    g.Derives e w ↔ w ∈ e.denote spell g.languages :=
  ⟨fun h => h.mem_denote fun _ => holds_languages, derives_of_mem_denote⟩

theorem mem_languages_iff {symbol : Nonterminal} {w : List Token} : w ∈ g.languages symbol ↔
    ∃ rule ∈ g.rules, rule.lhs = symbol ∧ w ∈ rule.rhs.denote spell g.languages := by
  simp only [mem_languages, derives_nonterminal_iff, ← derives_iff_mem_denote]

theorem languages_mono (sub : g.rules ⊆ h.rules) (symbol : Nonterminal) :
    g.languages symbol ≤ h.languages symbol :=
  languages_le (fun _ hr => holds_languages (sub hr)) symbol

theorem languages_congr (same : g.SameRules h) : g.languages = h.languages :=
  funext fun symbol => le_antisymm (languages_mono (fun rule => (same rule).mp) symbol)
    (languages_mono (fun rule => (same rule).mpr) symbol)

/-! ## Lists of rules -/

section

variable {rules : List Rule} (wellFormed : ∀ rule ∈ rules, rule.rhs.WellFormed)

theorem holds_ofRules {rule : Rule} (h : rule ∈ rules) :
    rule.Holds (ofRules rules wellFormed).languages :=
  holds_languages (mem_ofRules.mpr h)

theorem languages_ofRules_le {I : Valuation} (hI : ∀ rule ∈ rules, rule.Holds I)
    (symbol : Nonterminal) : (ofRules rules wellFormed).languages symbol ≤ I symbol :=
  languages_le (fun rule hr => hI rule (mem_ofRules.mp hr)) symbol

theorem languages_ofRules_mono (sub : rules ⊆ g.rules) (symbol : Nonterminal) :
    (ofRules rules wellFormed).languages symbol ≤ g.languages symbol :=
  languages_ofRules_le wellFormed (fun _ hr => holds_languages (sub hr)) symbol

end

/-! ## The start symbol -/

theorem start?_eq_none_iff : g.start? = none ↔ g.rules = [] := by
  simp [start?]

theorem exists_rule_of_start? {start : Nonterminal} (h : g.start? = some start) :
    ∃ rule ∈ g.rules, rule.lhs = start := by
  obtain ⟨rule, hr, hlhs⟩ := Option.map_eq_some_iff.mp h
  exact ⟨rule, List.mem_of_mem_head? hr, hlhs⟩

theorem start?_ofRules {rules : List Rule} (wellFormed : ∀ rule ∈ rules, rule.rhs.WellFormed) :
    (ofRules rules wellFormed).start? = rules.head?.map Rule.lhs := by
  cases rules with
  | nil => rfl
  | cons rule rules => simp [start?, List.eraseDups_cons]

theorem generates_iff {w : List Token} :
    g.Generates w ↔ ∃ start, g.start? = some start ∧ w ∈ g.languages start :=
  Iff.rfl

theorem not_generates_of_rules_eq_nil (h : g.rules = []) (w : List Token) : ¬g.Generates w := by
  intro h'
  obtain ⟨start, hs, -⟩ := h'
  simp [start?_eq_none_iff.mpr h] at hs

/-! ## Moving the rules of the start symbol to the front -/

section

variable {start : Nonterminal} {rules : List Rule}
  (wellFormed : ∀ rule ∈ rules, rule.rhs.WellFormed)

theorem rooted_of_exists (hs : ∃ rule ∈ rules, rule.lhs = start) :
    (rooted (some start) rules wellFormed).SameRules (ofRules rules wellFormed) ∧
      (rooted (some start) rules wellFormed).start? = some start := by
  have hany : rules.any (fun rule => decide (rule.lhs = start)) := by
    simpa [List.any_eq_true] using hs
  rw [rooted, if_pos hany]
  constructor
  · intro rule
    simp only [mem_ofRules, List.mem_append, List.mem_filter, ← and_or_left, and_iff_left_iff_imp]
    exact fun _ => by by_cases h : rule.lhs = start <;> simp [h]
  · obtain ⟨rule, hr, hlhs⟩ := hs
    have hne : rules.filter (fun rule => decide (rule.lhs = start)) ≠ [] :=
      List.ne_nil_of_mem (List.mem_filter.mpr ⟨hr, by simpa using hlhs⟩)
    obtain ⟨first, rest, hcons⟩ := List.exists_cons_of_ne_nil hne
    have hfirst : first ∈ rules.filter (fun rule => decide (rule.lhs = start)) := by
      simp [hcons]
    simp only [start?_ofRules, hcons, List.cons_append, List.head?_cons, Option.map_some]
    simpa using (List.mem_filter.mp hfirst).2

theorem rooted_of_not_exists (hs : ¬∃ rule ∈ rules, rule.lhs = start) :
    rooted (some start) rules wellFormed = empty := by
  rw [rooted, if_neg]
  simpa [List.any_eq_true] using hs

theorem rooted_rules_subset {start? : Option Nonterminal} :
    (rooted start? rules wellFormed).rules ⊆ rules := by
  intro rule hr
  cases start? with
  | none => exact List.mem_eraseDups.mp hr
  | some start =>
    by_cases hs : ∃ rule ∈ rules, rule.lhs = start
    · exact mem_ofRules.mp (((rooted_of_exists wellFormed hs).1 rule).mp hr)
    · simp [rooted_of_not_exists wellFormed hs] at hr

/-- Only a grammar that is left without any rules has lost some. -/
theorem mem_rooted {start? : Option Nonterminal} (h : (rooted start? rules wellFormed).rules ≠ [])
    {rule : Rule} : rule ∈ (rooted start? rules wellFormed).rules ↔ rule ∈ rules := by
  cases start? with
  | none => exact List.mem_eraseDups
  | some start =>
    by_cases hs : ∃ rule ∈ rules, rule.lhs = start
    · rw [(rooted_of_exists wellFormed hs).1 rule, mem_ofRules]
    · exact absurd (by rw [rooted_of_not_exists wellFormed hs, rules_empty]) h

/-- Without rules for the start symbol it derives nothing, so nothing is lost. -/
theorem languages_rooted_start : (rooted (some start) rules wellFormed).languages start =
    (ofRules rules wellFormed).languages start := by
  by_cases hs : ∃ rule ∈ rules, rule.lhs = start
  · rw [languages_congr (rooted_of_exists wellFormed hs).1]
  · rw [rooted_of_not_exists wellFormed hs]
    refine le_antisymm (languages_mono (by simp) start) fun w hw => ?_
    obtain ⟨rule, hr, hlhs, -⟩ := mem_languages_iff.mp hw
    exact absurd ⟨rule, mem_ofRules.mp hr, hlhs⟩ hs

end

/-! ## Comparing grammars by what they generate -/

/-- The start symbol is kept, unless there is none any more, and no input is generated that was not
before. -/
structure Refines (h g : Grammar) : Prop where
  start : h.rules = [] ∨ h.start? = g.start?
  generates : ∀ {w}, h.Generates w → g.Generates w

/-- The start symbol is kept, unless there is none any more, and the same inputs are generated. -/
structure Preserves (h g : Grammar) : Prop extends Refines h g where
  generated : ∀ {w}, g.Generates w → h.Generates w

theorem Refines.rfl : g.Refines g := ⟨.inr (.refl _), id⟩

theorem Preserves.rfl : g.Preserves g := ⟨.rfl, id⟩

theorem Refines.trans {f : Grammar} (fg : f.Refines g) (gh : g.Refines h) : f.Refines h where
  start := by
    rcases fg.start with hf | hf
    · exact .inl hf
    rcases gh.start with hg | hg
    · exact .inl (start?_eq_none_iff.mp (hf.trans (start?_eq_none_iff.mpr hg)))
    · exact .inr (hf.trans hg)
  generates hw := gh.generates (fg.generates hw)

theorem Preserves.trans {f : Grammar} (fg : f.Preserves g) (gh : g.Preserves h) : f.Preserves h :=
  ⟨fg.toRefines.trans gh.toRefines, fun hw => fg.generated (gh.generated hw)⟩

theorem Preserves.generates_iff (hg : h.Preserves g) {w : List Token} :
    h.Generates w ↔ g.Generates w :=
  ⟨hg.generates, hg.generated⟩

/-- A grammar with the same start symbol is compared at the start symbol. -/
theorem Refines.of_start? (start : h.start? = g.start?)
    (le : ∀ s, g.start? = some s → h.languages s ≤ g.languages s) : h.Refines g :=
  ⟨.inr start, fun ⟨s, hs, hw⟩ => ⟨s, start ▸ hs, le s (start ▸ hs) hw⟩⟩

theorem Preserves.of_start? (start : h.start? = g.start?)
    (eq : ∀ s, g.start? = some s → h.languages s = g.languages s) : h.Preserves g :=
  ⟨.of_start? start fun s hs => (eq s hs).le,
    fun ⟨s, hs, hw⟩ => ⟨s, start.trans hs, (eq s hs).ge hw⟩⟩

section

variable {rules : List Rule} (wellFormed : ∀ rule ∈ rules, rule.rhs.WellFormed)

/-- Rules moved to the front are compared at the start symbol before that. -/
theorem refines_rooted (hnil : g.rules = [] → rules = [])
    (le : ∀ s, g.start? = some s → (ofRules rules wellFormed).languages s ≤ g.languages s) :
    (rooted g.start? rules wellFormed).Refines g := by
  cases hstart : g.start? with
  | none =>
    have hrules := hnil (start?_eq_none_iff.mp hstart)
    have hempty : (rooted none rules wellFormed).rules = [] := by simp [rooted, hrules]
    exact ⟨.inl hempty, fun hw => absurd hw (not_generates_of_rules_eq_nil hempty _)⟩
  | some start =>
    by_cases hs : ∃ rule ∈ rules, rule.lhs = start
    · refine .of_start? ((rooted_of_exists wellFormed hs).2.trans hstart.symm) fun s h => ?_
      obtain rfl : start = s := by simpa [hstart] using h
      exact languages_rooted_start wellFormed ▸ le start hstart
    · rw [rooted_of_not_exists wellFormed hs]
      exact ⟨.inl rfl, fun hw => absurd hw (not_generates_of_rules_eq_nil rfl _)⟩

theorem preserves_rooted (hnil : g.rules = [] → rules = [])
    (eq : ∀ s, g.start? = some s → (ofRules rules wellFormed).languages s = g.languages s) :
    (rooted g.start? rules wellFormed).Preserves g := by
  refine ⟨refines_rooted wellFormed hnil fun s hs => (eq s hs).le, ?_⟩
  intro w h
  obtain ⟨start, hstart, hw⟩ := h
  have hmem : w ∈ (ofRules rules wellFormed).languages start := (eq start hstart).ge hw
  obtain ⟨rule, hr, hlhs, -⟩ := mem_languages_iff.mp hmem
  rw [hstart]
  refine ⟨start, (rooted_of_exists wellFormed ⟨rule, mem_ofRules.mp hr, hlhs⟩).2, ?_⟩
  exact (languages_rooted_start wellFormed).ge hmem

end

end Grammar

end ContextFree
