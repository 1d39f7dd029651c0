import ContextFree.Proofs.Grammar.Branches
import ContextFree.Proofs.Tree.Useful

/-!
# Normalizing what is in normal form

The alternatives of a grammar in normal form are normal rules and perhaps one of the start symbol
for the empty string. Unless the start symbol has such a rule and is mentioned, the stages of
normalizing have nothing to do but to leave out useless rules and to put those of the start symbol
first (`Grammar.IsNormal.toCnf_eq_usefulPart`). Alternatives may also be joined before that.
-/

namespace ContextFree

theorem filter_mem_eq_of_sublist {α : Type} [DecidableEq α] {part l : List α} (hnodup : l.Nodup)
    (h : part.Sublist l) : l.filter (fun a => decide (a ∈ part)) = part := by
  induction h with
  | slnil => rfl
  | cons a h ih =>
    obtain ⟨ha, hnodup⟩ := List.nodup_cons.mp hnodup
    rw [List.filter_cons_of_neg (by simpa using fun hp => ha (h.subset hp)), ih hnodup]
  | @cons_cons part l a h ih =>
    obtain ⟨ha, hnodup⟩ := List.nodup_cons.mp hnodup
    have htail : ∀ b ∈ l, decide (b ∈ a :: part) = decide (b ∈ part) := by
      intro b hb
      have hne : b ≠ a := fun heq => ha (heq ▸ hb)
      simp [hne]
    rw [List.filter_cons_of_pos (by simp), List.filter_congr htail, ih hnodup]

/-- Parts of a list without repetition that have the same elements are the same. -/
theorem eq_of_sublist_of_mem_iff {α : Type} [DecidableEq α] {l₁ l₂ l : List α} (hnodup : l.Nodup)
    (h₁ : l₁.Sublist l) (h₂ : l₂.Sublist l) (h : ∀ a, a ∈ l₁ ↔ a ∈ l₂) : l₁ = l₂ := by
  rw [← filter_mem_eq_of_sublist hnodup h₁, ← filter_mem_eq_of_sublist hnodup h₂]
  simp only [h]

namespace Expr

variable {e branch : Expr} {isStart : Bool}

theorem isCnf_iff_branches :
    e.isCnf isStart ↔ ∀ branch ∈ e.branches, branch.isCnf isStart := by
  induction e with
  | terminal | nonterminal | empty | seq =>
    exact (List.forall_mem_singleton (p := (isCnf isStart ·))).symm
  | alt alternatives ih =>
    rw [isCnf, allCnf_eq_all, List.all_eq_true, branches_alt, List.forall_mem_flatMap]
    exact forall₂_congr ih

/-- A branch in normal form is the empty string, for the start symbol only, or normal. -/
theorem eq_empty_or_isNormal_of_isCnf (h : e.isCnf isStart) (halt : ¬e.isAlt) :
    e = .empty ∧ isStart ∨ e.IsNormal := by
  cases e with
  | terminal token => exact .inr (.terminal token)
  | nonterminal => simp [isCnf] at h
  | empty => exact .inl ⟨rfl, h⟩
  | alt => simp [isAlt] at halt
  | seq items =>
    rw [isCnf, Bool.and_eq_true, beq_iff_eq, List.all_eq_true] at h
    obtain ⟨hlength, hall⟩ := h
    obtain ⟨left, right, rfl⟩ := List.length_eq_two.mp hlength
    obtain ⟨left, hleft⟩ := Option.isSome_iff_exists.mp (hall left (by simp))
    obtain ⟨right, hright⟩ := Option.isSome_iff_exists.mp (hall right (by simp))
    rw [nonterminal?_eq_some_iff.mp hleft, nonterminal?_eq_some_iff.mp hright]
    exact .inr (.pair left right)

theorem IsNormal.isChoiceFree (h : e.IsNormal) : e.isChoiceFree := by
  cases h <;> simp

end Expr

namespace Grammar

variable {g h : Grammar} {rule : Rule} {symbol : Nonterminal} {w : List Token} {t : Tree}

/-! ## Grammars with the same rules and the same start symbol -/

theorem isParse_congr (same : h.SameRules g) (start : h.start? = g.start?) :
    Tree.IsParse h w t ↔ Tree.IsParse g w t := by
  constructor
  · intro ⟨ht, hroot, htokens⟩
    exact ⟨ht.mono fun rule => (same rule).mp, start ▸ hroot, htokens⟩
  · intro ⟨ht, hroot, htokens⟩
    exact ⟨ht.mono fun rule => (same rule).mpr, start ▸ hroot, htokens⟩

theorem sameRules_usefulPart (hfree : g.IsChoiceFree) (same : h.SameRules g)
    (start : h.start? = g.start?) : h.usefulPart.SameRules g.usefulPart := by
  intro rule
  have hfree' : h.IsChoiceFree := fun rule hr => hfree rule ((same rule).mp hr)
  simp only [mem_usefulPart_iff hfree', mem_usefulPart_iff hfree, same rule,
    isParse_congr same start]

/-- The useful part has the rules of the start symbol first anyway. -/
theorem usefulPart_startRulesFirst (hfree : g.IsChoiceFree) :
    g.startRulesFirst.usefulPart = g.usefulPart := by
  have hsub := rules_usefulPart_sublist (g := g.startRulesFirst)
  rw [start?_startRulesFirst, rules_startRulesFirst, Rule.startFirst_startFirst] at hsub
  apply ext
  exact eq_of_sublist_of_mem_iff (Rule.startFirst_perm.nodup_iff.mpr g.nodup) hsub
    rules_usefulPart_sublist
    (sameRules_usefulPart hfree sameRules_startRulesFirst start?_startRulesFirst)

theorem IsNormal.congr (hg : g.IsNormal) (same : h.SameRules g) (start : h.start? = g.start?) :
    h.IsNormal where
  normal rule hr := hg.normal rule ((same rule).mp hr)
  epsilon rule hr hempty := start ▸ hg.epsilon rule ((same rule).mp hr) hempty
  isolated rule hr hempty r hr' := hg.isolated rule ((same rule).mp hr) hempty r ((same r).mp hr')

/-- Normal rules are only cleaned. -/
theorem IsNormal.toCnf_eq_usefulPart (hnormal : g.splitAlternatives.IsNormal) (a : Arithmetic) :
    g.toCnf a = g.splitAlternatives.usefulPart := by
  have hmoved : g.splitAlternatives.startRulesFirst.IsNormal :=
    hnormal.congr sameRules_startRulesFirst start?_startRulesFirst
  have hpaired : ∀ rule ∈ g.splitAlternatives.usefulPart.rules, rule.rhs.IsPaired :=
    fun rule hr => hnormal.isPaired (usefulPart_rules_subset hr)
  rw [toCnf, hnormal.isolated.eliminateEpsilon_eq_startRulesFirst hnormal.isChoiceFree,
    eliminateUnits_eq_self hmoved.isChoiceFree (fun _ => hmoved.not_isUnit)
      isRooted_startRulesFirst,
    usefulPart_startRulesFirst hnormal.isChoiceFree, binarize_eq_self hpaired isRooted_usefulPart]

/-! ## Splitting grammars in normal form -/

/-- The start symbol derives the empty string directly and is mentioned by a right-hand side. -/
def HasRecursiveEpsilon (g : Grammar) : Prop :=
  ∃ start, g.start? = some start ∧
    (∃ rule ∈ g.rules, rule.lhs = start ∧ .empty ∈ rule.rhs.branches) ∧
    ∃ rule ∈ g.rules, start ∈ rule.rhs.nonterminals

theorem hasOuterChoices_of_isCnf (hcnf : g.isCnf) : g.HasOuterChoices := by
  intro rule hr branch hb
  have hbranch := Expr.isCnf_iff_branches.mp (List.all_eq_true.mp hcnf rule hr) branch hb
  rcases Expr.eq_empty_or_isNormal_of_isCnf hbranch (Expr.not_isAlt_of_mem_branches hb) with
    ⟨rfl, -⟩ | hnormal
  · rfl
  · exact hnormal.isChoiceFree

/-- The branches of the rules, and what they are if the grammar is in normal form. -/
theorem exists_of_mem_splitAlternatives (hcnf : g.isCnf) (hr : rule ∈ g.splitAlternatives.rules) :
    ∃ origin ∈ g.rules, rule.lhs = origin.lhs ∧ rule.rhs ∈ origin.rhs.branches ∧
      (rule.rhs = .empty ∧ g.start? = some rule.lhs ∨ rule.rhs.IsNormal) := by
  rw [(hasOuterChoices_of_isCnf hcnf).mem_splitAlternatives] at hr
  obtain ⟨origin, horigin, hr⟩ := List.mem_flatMap.mp hr
  obtain ⟨hlhs, hb⟩ := Rule.mem_branches.mp hr
  refine ⟨origin, horigin, hlhs, hb, ?_⟩
  have hbranch := Expr.isCnf_iff_branches.mp (List.all_eq_true.mp hcnf origin horigin) _ hb
  refine (Expr.eq_empty_or_isNormal_of_isCnf hbranch
    (Expr.not_isAlt_of_mem_branches hb)).imp_left ?_
  intro ⟨hempty, hstart⟩
  exact ⟨hempty, hlhs ▸ (of_decide_eq_true hstart).symm⟩

theorem mem_nonterminals_of_splitAlternatives (hcnf : g.isCnf)
    (hs : symbol ∈ g.splitAlternatives.nonterminals) : symbol ∈ g.nonterminals := by
  obtain ⟨rule, hr, hmem⟩ := mem_nonterminals.mp hs
  obtain ⟨origin, horigin, hlhs, hb, -⟩ := exists_of_mem_splitAlternatives hcnf hr
  refine mem_nonterminals.mpr ⟨origin, horigin, ?_⟩
  exact hmem.imp (·.trans hlhs) fun hs => Expr.mem_nonterminals_iff_branches.mpr ⟨_, hb, hs⟩

theorem isNormal_splitAlternatives (hcnf : g.isCnf) (hstart : ¬g.HasRecursiveEpsilon) :
    g.splitAlternatives.IsNormal where
  normal rule hr := by
    obtain ⟨-, -, -, -, hrhs⟩ := exists_of_mem_splitAlternatives hcnf hr
    exact hrhs.imp_left And.left
  epsilon rule hr hempty := by
    obtain ⟨-, -, -, -, ⟨-, hlhs⟩ | hnormal⟩ := exists_of_mem_splitAlternatives hcnf hr
    · rw [start?_splitAlternatives, hlhs]
    · rw [hempty] at hnormal
      cases hnormal
  isolated rule hr hempty r hr' hmem := by
    obtain ⟨origin, horigin, hlhs, hb, ⟨-, hs⟩ | hnormal⟩ :=
      exists_of_mem_splitAlternatives hcnf hr
    · obtain ⟨other, hother, -, hb', -⟩ := exists_of_mem_splitAlternatives hcnf hr'
      exact hstart ⟨rule.lhs, hs, ⟨origin, horigin, hlhs.symm, hempty ▸ hb⟩,
        other, hother, Expr.mem_nonterminals_iff_branches.mpr ⟨_, hb', hmem⟩⟩
    · rw [hempty] at hnormal
      cases hnormal

/-! ## Joining grammars in normal form -/

theorem isCnf_joinAlternatives (hcnf : g.isCnf) : g.joinAlternatives.isCnf := by
  refine List.all_eq_true.mpr fun joined hj => Expr.isCnf_iff_branches.mpr fun branch hb => ?_
  obtain ⟨rule, hr, hlhs, hb⟩ := exists_of_mem_branches_joinAlternatives hj hb
  rw [start?_joinAlternatives, ← hlhs]
  exact Expr.isCnf_iff_branches.mp (List.all_eq_true.mp hcnf rule hr) branch hb

theorem HasRecursiveEpsilon.of_joinAlternatives (h : g.joinAlternatives.HasRecursiveEpsilon) :
    g.HasRecursiveEpsilon := by
  obtain ⟨start, hstart, ⟨joined, hj, rfl, hempty⟩, other, hother, hmentions⟩ := h
  obtain ⟨branch, hb, hmentions⟩ := Expr.mem_nonterminals_iff_branches.mp hmentions
  obtain ⟨rule, hr, hlhs, hempty⟩ := exists_of_mem_branches_joinAlternatives hj hempty
  obtain ⟨mentioning, hr', -, hb⟩ := exists_of_mem_branches_joinAlternatives hother hb
  exact ⟨joined.lhs, start?_joinAlternatives ▸ hstart, ⟨rule, hr, hlhs, hempty⟩, mentioning, hr',
    Expr.mem_nonterminals_iff_branches.mpr ⟨branch, hb, hmentions⟩⟩

/-- A grammar in normal form is only split and cleaned by normalizing, rule for rule, unless the
start symbol has an alternative for the empty string and is mentioned. So no symbols are added, and
the same rules result if alternatives are joined before, which leaves the grammar in normal form. -/
theorem toCnf_of_isCnf (a : Arithmetic) (g : Grammar) (hcnf : g.isCnf)
    (hstart : ¬g.HasRecursiveEpsilon) :
    g.toCnf a = g.splitAlternatives.usefulPart ∧
    (∀ symbol ∈ (g.toCnf a).nonterminals, symbol ∈ g.nonterminals) ∧
    g.joinAlternatives.isCnf ∧
    (g.joinAlternatives.toCnf a).SameRules (g.toCnf a) := by
  have hjoined := isCnf_joinAlternatives hcnf
  have hnormal := isNormal_splitAlternatives hcnf hstart
  have hself := hnormal.toCnf_eq_usefulPart a
  refine ⟨hself, fun symbol hs => ?_, hjoined, ?_⟩
  · rw [hself] at hs
    obtain ⟨rule, hr, hmem⟩ := mem_nonterminals.mp hs
    exact mem_nonterminals_of_splitAlternatives hcnf
      (mem_nonterminals.mpr ⟨rule, usefulPart_rules_subset hr, hmem⟩)
  · have hstart' : ¬g.joinAlternatives.HasRecursiveEpsilon := fun h => hstart h.of_joinAlternatives
    have hnormal' := isNormal_splitAlternatives hjoined hstart'
    rw [hself, hnormal'.toCnf_eq_usefulPart a]
    refine sameRules_usefulPart hnormal.isChoiceFree
      (hasOuterChoices_of_isCnf hcnf).sameRules_splitAlternatives_joinAlternatives ?_
    rw [start?_splitAlternatives, start?_splitAlternatives, start?_joinAlternatives]

/-- Nested alternatives, an alternative for the empty string, and rules for the start symbol that
come late. Some rules are useless. -/
theorem toCnf_of_isCnf_nested : ∃ g : Grammar,
    g.rules = [⟨⟨"S"⟩, .alt [.empty, .alt [.terminal "s",
        .seq [.nonterminal ⟨"A"⟩, .nonterminal ⟨"B"⟩]]]⟩,
      ⟨⟨"A"⟩, .terminal "a"⟩, ⟨⟨"C"⟩, .terminal "c"⟩,
      ⟨⟨"S"⟩, .seq [.nonterminal ⟨"A"⟩, .nonterminal ⟨"A"⟩]⟩] ∧
    g.isCnf ∧ ¬g.HasRecursiveEpsilon ∧
    (g.toCnf (.wrapping 64)).rules = [⟨⟨"S"⟩, .empty⟩, ⟨⟨"S"⟩, .terminal "s"⟩,
      ⟨⟨"S"⟩, .seq [.nonterminal ⟨"A"⟩, .nonterminal ⟨"A"⟩]⟩, ⟨⟨"A"⟩, .terminal "a"⟩] ∧
    g.toCnf (.wrapping 64) = g.splitAlternatives.usefulPart ∧ g.joinAlternatives.isCnf ∧
    (g.joinAlternatives.toCnf (.wrapping 64)).SameRules (g.toCnf (.wrapping 64)) := by
  let g : Grammar := ⟨[⟨⟨"S"⟩, .alt [.empty, .alt [.terminal "s",
        .seq [.nonterminal ⟨"A"⟩, .nonterminal ⟨"B"⟩]]]⟩,
      ⟨⟨"A"⟩, .terminal "a"⟩, ⟨⟨"C"⟩, .terminal "c"⟩,
      ⟨⟨"S"⟩, .seq [.nonterminal ⟨"A"⟩, .nonterminal ⟨"A"⟩]⟩], by decide, by decide⟩
  have hcnf : g.isCnf := by decide
  have hstart : ¬g.HasRecursiveEpsilon := by
    rintro ⟨start, hs, -, hmentions⟩
    obtain rfl := Option.some.inj hs
    revert hmentions
    decide
  obtain ⟨hself, -, hjoined, hsame⟩ := toCnf_of_isCnf (.wrapping 64) g hcnf hstart
  refine ⟨g, rfl, hcnf, hstart, ?_, hself, hjoined, hsame⟩
  rw [hself]
  decide +kernel

end Grammar

end ContextFree
