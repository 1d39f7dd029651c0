import ContextFree.Proofs.Grammar.Extension
import ContextFree.Proofs.Grammar.Inlining

/-!
# Rules written with new symbols

Instead of a list of rules, another list is written down in which new symbols abbreviate parts of
the right-hand sides. Each new symbol is defined once, before it is used, so it can be spelled out;
with all of them spelled out, the rules that are not definitions are those of the first list
(`Rule.Unfolds.exists_abbreviates`).
-/

namespace ContextFree

instance {names : Names} {symbol : Nonterminal} : Decidable (names.Has symbol) :=
  inferInstanceAs (Decidable (symbol.name ∈ names.taken))

namespace Names

variable {names later : Names} {σ τ υ : Substitution} {symbol : Nonterminal} {e : Expr}

/-- The substitutions differ at most on symbols whose names are not in use. -/
def Keeps (names : Names) (σ τ : Substitution) : Prop :=
  ∀ symbol, names.Has symbol → τ symbol = σ symbol

theorem Keeps.refl (names : Names) (σ : Substitution) : names.Keeps σ σ :=
  fun _ _ => rfl

theorem Keeps.trans (h : names.Keeps σ τ) (hle : names.Le later) (h' : later.Keeps τ υ) :
    names.Keeps σ υ :=
  fun symbol hs => (h' symbol (hle symbol hs)).trans (h symbol hs)

/-- A symbol that is not in use may come to stand for anything. -/
theorem keeps_update (fresh : ¬names.Has symbol) (h : e.WellFormed) :
    names.Keeps σ (σ.update symbol e h) := by
  refine fun other ho => Substitution.update_of_ne h ?_
  rintro rfl
  exact fresh ho

theorem Keeps.subst_eq (h : names.Keeps σ τ) (hcovers : names.Covers e) : e.subst τ = e.subst σ :=
  Expr.subst_congr fun symbol hs => h symbol (hcovers symbol hs)

theorem Keeps.map_subst_eq {es : List Expr} (h : names.Keeps σ τ)
    (hcovers : ∀ e ∈ es, names.Covers e) : es.map (Expr.subst τ) = es.map (Expr.subst σ) :=
  List.map_congr_left fun e he => h.subst_eq (hcovers e he)

end Names

namespace Rule

/-- What `written` comes to, with the definitions in it unfolded, is `rules`. Before it is written,
`names` are in use, and `σ` spells out the symbols defined so far. The symbols of `old` are not
defined. -/
inductive Unfolds (old : Names) :
    (names : Names) → (σ : Substitution) → (rules written : List Rule) → Prop where
  | nil {names : Names} {σ : Substitution} : Unfolds old names σ [] []
  | define {names later : Names} {σ : Substitution} {symbol : Nonterminal} {rhs : Expr}
      {rules written : List Rule} (fresh : ¬names.Has symbol)
      (has_later : ∀ other, later.Has other ↔ other = symbol ∨ names.Has other)
      (wellFormed : rhs.WellFormed) (covers : names.Covers rhs)
      (rest :
        Unfolds old later (σ.update symbol (rhs.subst σ) (wellFormed.subst σ)) rules written) :
      Unfolds old names σ rules (⟨symbol, rhs⟩ :: written)
  | keep {names : Names} {σ : Substitution} {rule : Rule} {rhs : Expr} {rules written : List Rule}
      (has_lhs : old.Has rule.lhs) (covers : names.Covers rhs) (subst_eq : rhs.subst σ = rule.rhs)
      (rest : Unfolds old names σ rules written) :
      Unfolds old names σ (rule :: rules) (⟨rule.lhs, rhs⟩ :: written)

/-- The symbols that rules are written for although they are not in use. -/
def defined (old : Names) (written : List Rule) : List Nonterminal :=
  (written.map lhs).filter fun symbol => !decide (old.Has symbol)

variable {old names : Names} {σ : Substitution} {rules written : List Rule} {symbol : Nonterminal}

theorem mem_defined :
    symbol ∈ defined old written ↔ (∃ rule ∈ written, rule.lhs = symbol) ∧ ¬old.Has symbol := by
  simp [defined]

namespace Unfolds

/-- Symbols that are already in use get no definition. -/
theorem has_or_notHas (h : Unfolds old names σ rules written) :
    ∀ rule ∈ written, old.Has rule.lhs ∨ ¬names.Has rule.lhs := by
  induction h with
  | nil => simp
  | define fresh has_later _ _ _ ih =>
    refine List.forall_mem_cons.mpr ⟨.inr fresh, fun rule hr => ?_⟩
    exact (ih rule hr).imp_right fun hnot hhas => hnot ((has_later _).mpr (.inr hhas))
  | keep has_lhs _ _ _ ih => exact List.forall_mem_cons.mpr ⟨.inl has_lhs, ih⟩

theorem count_lhs_le_one (h : Unfolds old names σ rules written) (hs : ¬old.Has symbol) :
    (written.map lhs).count symbol ≤ 1 := by
  induction h with
  | nil => simp
  | @define _ _ _ defined _ _ written _ has_later _ _ rest ih =>
    rw [List.map_cons, List.count_cons]
    split
    · next heq =>
      obtain rfl : defined = symbol := by simpa using heq
      have hnone : (written.map lhs).count defined = 0 := by
        rw [List.count_eq_zero, List.mem_map]
        rintro ⟨rule, hr, rfl⟩
        exact (rest.has_or_notHas rule hr).elim hs fun hnot => hnot ((has_later _).mpr (.inl rfl))
      omega
    · exact ih
  | keep has_lhs _ _ _ ih =>
    rw [List.map_cons, List.count_cons_of_ne]
    · exact ih
    · rintro rfl
      exact hs has_lhs

/-- The symbols can be spelled out one after the other as they are defined. -/
theorem exists_substitution (h : Unfolds old names σ rules written) (hle : old.Le names) :
    ∃ τ : Substitution, names.Keeps σ τ ∧ (∀ symbol ∉ written.map lhs, τ symbol = σ symbol) ∧
      (∀ rule ∈ written, ¬old.Has rule.lhs → rule.rhs.subst τ = τ rule.lhs) ∧
      (written.filter fun rule => decide (old.Has rule.lhs)).map (subst τ) = rules := by
  induction h with
  | nil => exact ⟨_, .refl _ _, fun _ _ => rfl, by simp, rfl⟩
  | @define names later σ symbol rhs rules written fresh has_later wellFormed covers _ ih =>
    have hlater : names.Le later := fun other ho => (has_later other).mpr (.inr ho)
    obtain ⟨τ, hkeeps, hother, hspells, hrules⟩ := ih (hle.trans hlater)
    have hsymbol : τ symbol = rhs.subst σ := by
      rw [hkeeps symbol ((has_later symbol).mpr (.inl rfl)), Substitution.update_self]
    have hkeeps : names.Keeps σ τ := (Names.keeps_update fresh _).trans hlater hkeeps
    refine ⟨τ, hkeeps, fun other ho => ?_, List.forall_mem_cons.mpr ⟨fun _ => ?_, hspells⟩, ?_⟩
    · rw [List.map_cons, List.mem_cons, not_or] at ho
      rw [hother other ho.2, Substitution.update_of_ne _ ho.1]
    · rw [hsymbol, hkeeps.subst_eq covers]
    · rw [List.filter_cons_of_neg, hrules]
      simpa using fun hold => fresh (hle symbol hold)
  | @keep names σ rule rhs rules written has_lhs covers subst_eq _ ih =>
    obtain ⟨τ, hkeeps, hother, hspells, hrules⟩ := ih hle
    refine ⟨τ, hkeeps, fun other ho => hother other fun hmem => ?_,
      List.forall_mem_cons.mpr ⟨fun hnot => absurd has_lhs hnot, hspells⟩, ?_⟩
    · exact ho (List.mem_cons_of_mem rule.lhs hmem)
    · rw [List.filter_cons_of_pos (by simpa using has_lhs), List.map_cons, hrules, subst,
        hkeeps.subst_eq covers, subst_eq]

/-- A symbol only has symbols in its definition that are defined before. -/
theorem exists_rank (h : Unfolds old names σ rules written) : ∃ rank : Nonterminal → Nat,
    ∀ rule ∈ written, ¬old.Has rule.lhs →
      ∀ symbol ∈ rule.rhs.nonterminals, rank symbol < rank rule.lhs := by
  induction h with
  | nil => exact ⟨fun _ => 0, by simp⟩
  | @define names later σ symbol rhs rules written fresh has_later wellFormed covers rest ih =>
    obtain ⟨rank, hlt⟩ := ih
    -- What is in use here ranks lowest, `symbol` next, and all that is defined later above.
    refine ⟨fun other => if names.Has other then 0 else rank other + 1,
      List.forall_mem_cons.mpr ⟨fun _ other ho => ?_, fun rule hr hold other ho => ?_⟩⟩
    · simp [covers other ho, fresh]
    · have hlhs : ¬names.Has rule.lhs := fun hhas =>
        (rest.has_or_notHas rule hr).resolve_left hold ((has_later _).mpr (.inr hhas))
      have := hlt rule hr hold other ho
      simp only [hlhs, if_false]
      split <;> omega
  | keep has_lhs _ _ _ ih =>
    obtain ⟨rank, hlt⟩ := ih
    exact ⟨rank, List.forall_mem_cons.mpr ⟨fun hnot => absurd has_lhs hnot, hlt⟩⟩

/-- The new symbols are abbreviations, and the other rules are the given ones once these are spelled
out. -/
theorem exists_abbreviates (h : Unfolds old old .id rules written)
    (wellFormed : ∀ rule ∈ written, rule.rhs.WellFormed) :
    ∃ (τ : Substitution) (rank : Nonterminal → Nat),
      Abbreviates (defined old written) τ rank written ∧
      (written.filter fun rule => decide (old.Has rule.lhs)).map (subst τ) = rules := by
  obtain ⟨τ, hkeeps, hother, hspells, hrules⟩ := h.exists_substitution fun _ => id
  obtain ⟨rank, hlt⟩ := h.exists_rank
  refine ⟨τ, rank, ⟨wellFormed, ?defined, ?spells, ?fixes, ?rank_lt⟩, hrules⟩
  case defined => exact fun symbol hs => (mem_defined.mp hs).1
  case spells => exact fun rule hr hlhs => hspells rule hr (mem_defined.mp hlhs).2
  case fixes =>
    intro symbol hs
    by_cases hold : old.Has symbol
    · exact hkeeps symbol hold
    · exact hother symbol fun hmem => hs (mem_defined.mpr ⟨List.mem_map.mp hmem, hold⟩)
  case rank_lt =>
    exact fun rule hr hlhs symbol hs _ => hlt rule hr (mem_defined.mp hlhs).2 symbol hs

/-- No rule is written twice. -/
theorem nodup (h : Unfolds old old .id rules written) (hnodup : rules.Nodup) : written.Nodup := by
  obtain ⟨τ, -, -, -, hrules⟩ := h.exists_substitution fun _ => id
  have hkept : (written.filter fun rule => decide (old.Has rule.lhs)).Nodup :=
    List.Nodup.of_map (subst τ) (hrules ▸ hnodup)
  apply List.nodup_iff_count_le_one.mpr
  intro rule
  by_cases hold : old.Has rule.lhs
  · rw [← List.count_filter (p := fun rule => decide (old.Has rule.lhs)) (by simpa using hold)]
    exact List.nodup_iff_count_le_one.mp hkept rule
  · exact (List.count_le_count_map (f := lhs)).trans (h.count_lhs_le_one hold)

end Unfolds

end Rule

end ContextFree
