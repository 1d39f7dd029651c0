import ContextFree.Proofs.Grammar.Language
import ContextFree.Proofs.Names

/-!
# Rules for new symbols

Splitting choices and breaking sequences into pairs draw new symbols and write rules for them. Such
a batch of rules is harmless when every valuation extends to the new symbols so that the rules hold
(`Names.Extends`). Batches are put together one after the other, and what a grammar derives from its
old symbols does not change when its rules are replaced by a harmless batch that implies them
(`Grammar.languages_of_extends`).
-/

namespace ContextFree

namespace Names

variable {names names₁ names₂ : Names} {I J : Valuation} {rules rules₁ rules₂ : List Rule}
  {e : Expr}

/-- The names of all nonterminals of an expression are in use. -/
def Covers (names : Names) (e : Expr) : Prop :=
  ∀ symbol ∈ e.nonterminals, names.Has symbol

/-- Every name that is in use is still in use in `names₁`. -/
def Le (names names₁ : Names) : Prop :=
  ∀ symbol, names.Has symbol → names₁.Has symbol

/-- The valuations differ at most on symbols whose names are not in use. -/
def Agree (names : Names) (I J : Valuation) : Prop :=
  ∀ symbol, names.Has symbol → J symbol = I symbol

theorem Le.trans (h : names.Le names₁) (h₁ : names₁.Le names₂) : names.Le names₂ :=
  fun symbol hs => h₁ symbol (h symbol hs)

theorem Covers.mono (h : names.Covers e) (hle : names.Le names₁) : names₁.Covers e :=
  fun symbol hs => hle symbol (h symbol hs)

theorem Agree.trans {K : Valuation} (h : names.Agree I J) (hle : names.Le names₁)
    (h₁ : names₁.Agree J K) : names.Agree I K :=
  fun symbol hs => (h₁ symbol (hle symbol hs)).trans (h symbol hs)

theorem Agree.denote_eq {tokens : Token → Language Token} (h : names.Agree I J)
    (hc : names.Covers e) : e.denote tokens J = e.denote tokens I :=
  Expr.denote_congr fun symbol hs => h symbol (hc symbol hs)

/-- Only the symbols of a rule matter to whether it holds. -/
theorem Agree.holds {rule : Rule} (h : names.Agree I J)
    (hcovers : names.Has rule.lhs ∧ names.Covers rule.rhs) (holds : rule.Holds I) :
    rule.Holds J := by
  rw [Rule.Holds, h.denote_eq hcovers.2, h _ hcovers.1]
  exact holds

theorem le_primedAll {bases : List Nonterminal} : names.Le (names.primedAll bases).2 :=
  fun _ hs => has_primedAll_iff.mpr (.inr hs)

theorem covers_nonterminal {symbol : Nonterminal} :
    names.Covers (.nonterminal symbol) ↔ names.Has symbol := by
  simp [Covers, Expr.mem_nonterminals]

theorem covers_seq {items : List Expr} :
    names.Covers (.seq items) ↔ ∀ item ∈ items, names.Covers item := by
  simp only [Covers, Expr.mem_nonterminals_seq]
  exact ⟨fun h item hi symbol hs => h symbol ⟨item, hi, hs⟩,
    fun h symbol ⟨item, hi, hs⟩ => h item hi symbol hs⟩

theorem covers_alt {alternatives : List Expr} :
    names.Covers (.alt alternatives) ↔ ∀ e ∈ alternatives, names.Covers e := by
  simp only [Covers, Expr.mem_nonterminals_alt]
  exact ⟨fun h e he symbol hs => h symbol ⟨e, he, hs⟩, fun h symbol ⟨e, he, hs⟩ => h e he symbol hs⟩

theorem covers_concat {es : List Expr} (h : ∀ e ∈ es, names.Covers e) :
    names.Covers (.concat es) := by
  intro symbol hs
  obtain ⟨e, he, hs⟩ := Expr.mem_nonterminals_concat.mp hs
  exact h e he symbol hs

/-- After the rules are written, `names₁` are in use; every valuation of the symbols that were in
use before extends to the new ones such that the rules hold. -/
structure Extends (names : Names) (I : Valuation) (rules : List Rule) (names₁ : Names) : Prop where
  le : names.Le names₁
  covers : ∀ rule ∈ rules, names₁.Has rule.lhs ∧ names₁.Covers rule.rhs
  valuation : ∃ J, names.Agree I J ∧ ∀ rule ∈ rules, rule.Holds J

theorem Extends.nil : names.Extends I [] names :=
  ⟨fun _ => id, by simp, I, fun _ _ => rfl, by simp⟩

/-- A rule whose symbols are in use may go first if it holds already. -/
theorem Extends.cons {rule : Rule} (hlhs : names.Has rule.lhs) (hrhs : names.Covers rule.rhs)
    (h : rule.Holds I) (rest : names.Extends I rules names₁) :
    names.Extends I (rule :: rules) names₁ := by
  obtain ⟨hle, hcovers, J, hJ, holds⟩ := rest
  refine ⟨hle, ?_, J, hJ, ?_⟩
  · exact List.forall_mem_cons.mpr ⟨⟨hle _ hlhs, hrhs.mono hle⟩, hcovers⟩
  · exact List.forall_mem_cons.mpr ⟨hJ.holds ⟨hlhs, hrhs⟩ h, holds⟩

theorem Extends.single {rule : Rule} (hlhs : names.Has rule.lhs) (hrhs : names.Covers rule.rhs)
    (h : rule.Holds I) : names.Extends I [rule] names :=
  .cons hlhs hrhs h .nil

/-- The second batch may rely on any valuation that the first one leads to. -/
theorem Extends.append (first : names.Extends I rules₁ names₁)
    (second : ∀ J, names.Agree I J → names₁.Extends J rules₂ names₂) :
    names.Extends I (rules₁ ++ rules₂) names₂ := by
  obtain ⟨J, hJ, holds₁⟩ := first.valuation
  obtain ⟨le₂, covers₂, K, hK, holds₂⟩ := second J hJ
  refine ⟨first.le.trans le₂, fun rule hr => ?_, K, hJ.trans first.le hK, fun rule hr => ?_⟩
  · rcases List.mem_append.mp hr with hr | hr
    · obtain ⟨hlhs, hrhs⟩ := first.covers rule hr
      exact ⟨le₂ _ hlhs, hrhs.mono le₂⟩
    · exact covers₂ rule hr
  · rcases List.mem_append.mp hr with hr | hr
    · exact hK.holds (first.covers rule hr) (holds₁ rule hr)
    · exact holds₂ rule hr

/-- Symbols are drawn and given languages before the rules are written. -/
theorem Extends.of_drawn (hle : names.Le names₁) (hJ : names.Agree I J)
    (h : names₁.Extends J rules names₂) : names.Extends I rules names₂ := by
  obtain ⟨le₂, covers, K, hK, holds⟩ := h
  exact ⟨hle.trans le₂, covers, K, hJ.trans hle hK, holds⟩

/-- Distinct symbols that are not in use can be given any languages. -/
theorem exists_agree {symbols : List Nonterminal} (hnodup : symbols.Nodup)
    (hnew : ∀ symbol ∈ symbols, ¬names.Has symbol) (ls : List (Language Token))
    (hlen : symbols.length = ls.length) (I : Valuation) :
    ∃ J, names.Agree I J ∧ symbols.map J = ls := by
  induction symbols generalizing ls with
  | nil => exact ⟨I, fun _ _ => rfl, by cases ls <;> simp_all⟩
  | cons symbol symbols ih =>
    obtain ⟨l, ls, rfl⟩ := List.exists_cons_of_length_eq_add_one hlen.symm
    obtain ⟨hnotMem, hnodup⟩ := List.nodup_cons.mp hnodup
    obtain ⟨hsymbol, hnew⟩ := List.forall_mem_cons.mp hnew
    obtain ⟨J, hJ, hmap⟩ := ih hnodup hnew ls (by simpa using hlen)
    refine ⟨Function.update J symbol l, fun other ho => ?_, ?_⟩
    · have hne : other ≠ symbol := fun heq => hsymbol (heq ▸ ho)
      rw [Function.update_of_ne hne, hJ other ho]
    · rw [List.map_cons, Function.update_self, ← hmap]
      congr 1
      refine List.map_congr_left fun other ho => ?_
      have hne : other ≠ symbol := fun heq => hnotMem (heq ▸ ho)
      rw [Function.update_of_ne hne]

end Names

namespace Grammar

variable {g : Grammar}

theorem has_names_lhs {rule : Rule} (h : rule ∈ g.rules) : g.names.Has rule.lhs :=
  has_names_of_mem_nonterminals (mem_nonterminals.mpr ⟨rule, h, .inl rfl⟩)

theorem covers_names_rhs {rule : Rule} (h : rule ∈ g.rules) : g.names.Covers rule.rhs :=
  fun _ hs => has_names_of_mem_nonterminals (mem_nonterminals.mpr ⟨rule, h, .inr hs⟩)

theorem has_names_start {start : Nonterminal} (h : g.start? = some start) :
    g.names.Has start := by
  obtain ⟨rule, hr, rfl⟩ := exists_rule_of_start? h
  exact has_names_lhs hr

/-- Rules that imply those of a grammar, and that hold of what it derives once the new symbols are
given the right languages, derive the same from every old symbol. -/
theorem languages_of_extends {rules : List Rule} {names : Names}
    (wellFormed : ∀ rule ∈ rules, rule.rhs.WellFormed)
    (extends_ : g.names.Extends g.languages rules names)
    (implies : ∀ I, (∀ rule ∈ rules, rule.Holds I) → ∀ rule ∈ g.rules, rule.Holds I)
    {symbol : Nonterminal} (hs : g.names.Has symbol) :
    (ofRules rules wellFormed).languages symbol = g.languages symbol := by
  apply le_antisymm
  · obtain ⟨J, hJ, holds⟩ := extends_.valuation
    rw [← hJ symbol hs]
    exact languages_ofRules_le wellFormed holds symbol
  · exact languages_le (implies _ fun _ => holds_ofRules wellFormed) symbol

end Grammar

end ContextFree
