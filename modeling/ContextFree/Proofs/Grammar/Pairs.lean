import ContextFree.Proofs.Grammar.Idempotent
import ContextFree.Proofs.Grammar.StartFirst
import ContextFree.Proofs.Grammar.Unfolding

/-!
# What pairs abbreviate

Breaking sequences into pairs can be undone. Every new symbol is defined by one rule and used in one
place, and inlining the new symbols in any order ends with the rules that were broken up
(`Grammar.binarize_spec`).
-/

namespace ContextFree

namespace Expr

variable {old : Names} {numbering : Numbering} {σ : Substitution} {items : List Expr}
  {rules written : List Rule} {lhs symbol : Nonterminal} {first : Expr}

/-! ## Unfolding -/

/-- The rules for terminals are definitions, whatever is written with the lifted items. -/
theorem unfolds_liftTerminals (hcovers : ∀ item ∈ items, numbering.names.Covers item)
    (next : ∀ τ, numbering.names.Keeps σ τ →
      (∀ item ∈ (liftTerminals items numbering).items,
        (liftTerminals items numbering).numbering.names.Covers item) →
      (liftTerminals items numbering).items.map (subst τ) = items.map (subst σ) →
      Rule.Unfolds old (liftTerminals items numbering).numbering.names τ rules written) :
    Rule.Unfolds old numbering.names σ rules
      ((liftTerminals items numbering).rules ++ written) := by
  induction items generalizing numbering σ with
  | nil => exact next σ (.refl _ σ) (by simp [liftTerminals]) rfl
  | cons item items ih =>
    obtain ⟨hitem, hrest⟩ := List.forall_mem_cons.mp hcovers
    cases hterminal : item.terminal? with
    | some token =>
      obtain rfl := terminal?_eq_some_iff.mp hterminal
      have hfresh := numbering.terminal_notHas
      have hdrawn : numbering.terminal.2.names.Has numbering.terminal.1 :=
        Numbering.has_terminal_iff.mpr (.inl rfl)
      rw [liftTerminals_terminal] at next ⊢
      refine .define hfresh (fun _ => Numbering.has_terminal_iff) (.terminal token) hitem
        (ih (fun i hi => (hrest i hi).mono Numbering.le_terminal) ?_)
      intro τ hτ hlifted hmap
      have hkeeps := Names.keeps_update (σ := σ) hfresh (.terminal token)
      refine next τ (hkeeps.trans Numbering.le_terminal hτ) ?_ ?_
      · exact List.forall_mem_cons.mpr
          ⟨Names.covers_nonterminal.mpr (le_liftTerminals _ hdrawn), hlifted⟩
      · rw [List.map_cons, List.map_cons, hmap, subst_nonterminal, hτ _ hdrawn]
        exact congrArg₂ List.cons (Substitution.update_self _) (hkeeps.map_subst_eq hrest)
    | none =>
      rw [liftTerminals_of_terminal?_eq_none hterminal] at next ⊢
      refine ih hrest fun τ hτ hlifted hmap => next τ hτ ?_ ?_
      · exact List.forall_mem_cons.mpr ⟨hitem.mono le_liftTerminals, hlifted⟩
      · rw [List.map_cons, List.map_cons, hmap, hτ.subst_eq hitem]

/-- All pairs but the last one are definitions, and the last one is kept. -/
theorem unfolds_pairUp (hlhs : old.Has lhs)
    (hwf : ∀ item ∈ first :: items, item.WellFormed)
    (hcovers : ∀ item ∈ first :: items, numbering.names.Covers item)
    (next : ∀ τ, numbering.names.Keeps σ τ →
      Rule.Unfolds old (pairUp lhs first items numbering).2.names τ rules written) :
    Rule.Unfolds old numbering.names σ (⟨lhs, concat ((first :: items).map (subst σ))⟩ :: rules)
      ((pairUp lhs first items numbering).1 ++ written) := by
  induction items generalizing first numbering σ with
  | nil =>
    refine .keep hlhs (hcovers first List.mem_cons_self) ?_ (next σ (.refl _ σ))
    have hfirst := hwf first List.mem_cons_self
    exact (concat_singleton (hfirst.subst σ)).symm
  | cons item items ih =>
    obtain ⟨hfirst, hwfitems⟩ := List.forall_mem_cons.mp hwf
    obtain ⟨hcfirst, hcitems⟩ := List.forall_mem_cons.mp hcovers
    obtain ⟨hitem, hwfrest⟩ := List.forall_mem_cons.mp hwfitems
    obtain ⟨hcitem, hcrest⟩ := List.forall_mem_cons.mp hcitems
    have hpair : ∀ e ∈ [first, item], e.WellFormed := by simp [hfirst, hitem]
    have hcpair : numbering.names.Covers (concat [first, item]) :=
      Names.covers_concat (by simp [hcfirst, hcitem])
    cases items with
    | nil => exact .keep hlhs hcpair (subst_concat hpair σ) (next σ (.refl _ σ))
    | cons third items =>
      have hfresh := numbering.fold_notHas
      have hdrawn : numbering.fold.2.names.Has numbering.fold.1 :=
        Numbering.has_fold_iff.mpr (.inl rfl)
      rw [pairUp_cons_cons] at next ⊢
      have hkeeps := Names.keeps_update (σ := σ) hfresh ((wellFormed_concat hpair).subst σ)
      refine .define hfresh (fun _ => Numbering.has_fold_iff) (wellFormed_concat hpair) hcpair ?_
      -- Spelled out, the new symbol is a concatenation, and this is flattened where it is used.
      have hrhs : concat ((nonterminal numbering.fold.1 :: third :: items).map
            (subst (σ.update numbering.fold.1 ((concat [first, item]).subst σ)
              ((wellFormed_concat hpair).subst σ)))) =
          concat ((first :: item :: third :: items).map (subst σ)) := by
        rw [List.map_cons, hkeeps.map_subst_eq hcrest, subst_nonterminal, Substitution.update_self,
          subst_concat hpair, concat_concat_cons]
        · rfl
        · rw [List.forall_mem_map]
          exact fun e he => (hpair e he).subst σ
      rw [← hrhs]
      refine ih (List.forall_mem_cons.mpr ⟨.nonterminal _, hwfrest⟩)
        (List.forall_mem_cons.mpr ⟨Names.covers_nonterminal.mpr hdrawn, fun i hi =>
          (hcrest i hi).mono Numbering.le_fold⟩) fun τ hτ => next τ ?_
      exact hkeeps.trans Numbering.le_fold hτ

/-! ## Counting -/

theorem count_liftTerminals (items : List Expr) (numbering : Numbering) (symbol : Nonterminal) :
    ((liftTerminals items numbering).items.flatMap nonterminals).count symbol =
      (items.flatMap nonterminals).count symbol +
        ((liftTerminals items numbering).rules.map Rule.lhs).count symbol := by
  induction items generalizing numbering with
  | nil => rfl
  | cons item items ih =>
    cases hterminal : item.terminal? with
    | some token =>
      obtain rfl := terminal?_eq_some_iff.mp hterminal
      simp only [liftTerminals_terminal, List.flatMap_cons, List.count_append,
        nonterminals_nonterminal, nonterminals_terminal, List.map_cons, List.count_cons, ih,
        List.count_nil]
      omega
    | none =>
      simp only [liftTerminals_of_terminal?_eq_none hterminal, List.flatMap_cons,
        List.count_append, ih]
      omega

theorem mentioned_liftTerminals (items : List Expr) (numbering : Numbering) :
    Rule.mentioned (liftTerminals items numbering).rules = [] := by
  apply List.flatMap_eq_nil_iff.mpr
  intro rule hr
  obtain ⟨-, token, -, hrhs⟩ := draws_of_mem_liftTerminals rule hr
  rw [hrhs]
  rfl

/-- Each symbol is used as often as it is defined, beyond what was there before. -/
theorem count_pairUp (lhs : Nonterminal) (first : Expr) (items : List Expr) (numbering : Numbering)
    (symbol : Nonterminal) :
    [lhs].count symbol + (Rule.mentioned (pairUp lhs first items numbering).1).count symbol =
      ((first :: items).flatMap nonterminals).count symbol +
        ((pairUp lhs first items numbering).1.map Rule.lhs).count symbol := by
  induction items generalizing first numbering with
  | nil => simp [pairUp, Rule.mentioned, add_comm]
  | cons item items ih =>
    cases items with
    | nil => simp [pairUp, Rule.mentioned, nonterminals_concat, add_comm]
    | cons third items =>
      have hrest := ih (.nonterminal numbering.fold.1) numbering.fold.2
      simp only [pairUp_cons_cons, Rule.mentioned, List.flatMap_cons, List.count_append,
        nonterminals_nonterminal, nonterminals_concat, List.map_cons, List.count_cons,
        List.count_nil, List.flatMap_nil] at hrest ⊢
      omega

end Expr

namespace Rule

variable {old : Names} {numbering : Numbering} {σ : Substitution} {rule : Rule}
  {rules written : List Rule} {symbol : Nonterminal}

theorem unfolds_binarize (hwf : rule.rhs.WellFormed) (hlhs : old.Has rule.lhs)
    (hcovers : numbering.names.Covers rule.rhs) (hself : rule.rhs.subst σ = rule.rhs)
    (next : ∀ τ, numbering.names.Keeps σ τ →
      Unfolds old (rule.binarize numbering).2.names τ rules written) :
    Unfolds old numbering.names σ (rule :: rules) ((rule.binarize numbering).1 ++ written) := by
  by_cases hseq : rule.isSequence
  · obtain ⟨lhs, rhs⟩ := rule
    cases rhs with
    | seq items =>
      obtain ⟨first, rest, hlifted, -, heq⟩ := binarize_seq hwf lhs numbering
      have hwflifted :=
        (Expr.wellFormed_of_mem_liftTerminals (Expr.wellFormed_seq.mp hwf).2.2 numbering).1
      rw [heq] at next ⊢
      rw [List.append_assoc]
      refine Expr.unfolds_liftTerminals (Names.covers_seq.mp hcovers) fun τ hτ hclifted hmap => ?_
      have hrhs : Expr.concat ((first :: rest).map (Expr.subst τ)) = .seq items := by
        rw [← hlifted, hmap, ← Expr.subst_seq]
        exact hself
      rw [hlifted] at hwflifted hclifted
      rw [← hrhs]
      exact Expr.unfolds_pairUp hlhs hwflifted hclifted fun υ hυ =>
        next υ (hτ.trans Expr.le_liftTerminals hυ)
    | terminal | nonterminal | empty | alt => simp [isSequence, Expr.isSeq] at hseq
  · rw [binarize_of_not_isSequence hseq] at next ⊢
    exact .keep hlhs hcovers hself (next σ (.refl _ σ))

theorem unfolds_binarizeAll (hwf : ∀ rule ∈ rules, rule.rhs.WellFormed)
    (hcovers : ∀ rule ∈ rules, old.Has rule.lhs ∧ old.Covers rule.rhs)
    (hle : old.Le numbering.names) (hσ : old.Keeps .id σ) :
    Unfolds old numbering.names σ rules (binarizeAll rules numbering).1 := by
  induction rules generalizing numbering σ with
  | nil => exact .nil
  | cons rule rules ih =>
    obtain ⟨hwfrule, hwf⟩ := List.forall_mem_cons.mp hwf
    obtain ⟨⟨hlhs, hrhs⟩, hcovers⟩ := List.forall_mem_cons.mp hcovers
    rw [binarizeAll]
    have hself : rule.rhs.subst σ = rule.rhs := by rw [hσ.subst_eq hrhs, hwfrule.subst_id]
    exact unfolds_binarize hwfrule hlhs (hrhs.mono hle) hself fun τ hτ =>
      ih hwf hcovers (hle.trans (le_binarize hwfrule)) (hσ.trans hle hτ)

theorem count_binarize (hwf : rule.rhs.WellFormed) (numbering : Numbering)
    (symbol : Nonterminal) :
    [rule.lhs].count symbol + (mentioned (rule.binarize numbering).1).count symbol =
      rule.rhs.nonterminals.count symbol +
        ((rule.binarize numbering).1.map lhs).count symbol := by
  by_cases hseq : rule.isSequence
  · obtain ⟨lhs, rhs⟩ := rule
    cases rhs with
    | seq items =>
      obtain ⟨first, rest, hlifted, -, heq⟩ := binarize_seq hwf lhs numbering
      have hlift := Expr.count_liftTerminals items numbering symbol
      have hpair := Expr.count_pairUp lhs first rest (Expr.liftTerminals items numbering).numbering
        symbol
      have hnone := Expr.mentioned_liftTerminals items numbering
      rw [heq]
      rw [hlifted] at hlift
      simp only [mentioned, List.flatMap_append, List.map_append, List.count_append,
        Expr.nonterminals_seq] at hnone hpair hlift ⊢
      rw [hnone, List.count_nil]
      omega
    | terminal | nonterminal | empty | alt => simp [isSequence, Expr.isSeq] at hseq
  · simp [binarize_of_not_isSequence hseq, mentioned, add_comm]

theorem count_binarizeAll (hwf : ∀ rule ∈ rules, rule.rhs.WellFormed) (numbering : Numbering)
    (symbol : Nonterminal) :
    (rules.map lhs).count symbol + (mentioned (binarizeAll rules numbering).1).count symbol =
      (mentioned rules).count symbol +
        ((binarizeAll rules numbering).1.map lhs).count symbol := by
  induction rules generalizing numbering with
  | nil => rfl
  | cons rule rules ih =>
    obtain ⟨hwfrule, hwf⟩ := List.forall_mem_cons.mp hwf
    have hrule := count_binarize hwfrule numbering symbol
    have hrest := ih hwf (rule.binarize numbering).2
    simp only [binarizeAll, mentioned, List.flatMap_cons, List.flatMap_append, List.map_cons,
      List.map_append, List.count_append, List.count_cons, List.count_nil] at hrule hrest ⊢
    omega

end Rule

namespace Grammar

open Rule (startFirst Inlines mentioned)

variable {g : Grammar} {symbol : Nonterminal}

theorem unfolds_pairs : Rule.Unfolds g.names g.names .id g.rules g.pairs.1 := by
  have hle : g.names.Le (Numbering.start g.names).names := fun _ => id
  exact Rule.unfolds_binarizeAll g.wellFormed
    (fun _ hr => ⟨has_names_lhs hr, covers_names_rhs hr⟩) hle (.refl _ _)

/-- The symbols that are drawn for the pairs of a grammar. -/
def pairSymbols (g : Grammar) : List Nonterminal :=
  Rule.defined g.names g.pairs.1

theorem notHas_of_mem_pairSymbols (hs : symbol ∈ g.pairSymbols) : ¬g.names.Has symbol :=
  (Rule.mem_defined.mp hs).2

theorem rules_binarize : g.binarize.rules = startFirst g.start? g.pairs.1 := by
  have hnodup : (startFirst g.start? g.pairs.1).Nodup :=
    Rule.startFirst_perm.nodup_iff.mpr (unfolds_pairs.nodup g.nodup)
  refine (rules_rooted _ fun start hstart => ?_).trans (eraseDups_eq_self hnodup)
  obtain ⟨τ, -, -, -, hrules⟩ := (unfolds_pairs (g := g)).exists_substitution fun _ => id
  obtain ⟨rule, hr, rfl⟩ := exists_rule_of_start? hstart
  rw [← hrules] at hr
  obtain ⟨kept, hkept, rfl⟩ := List.mem_map.mp hr
  exact ⟨kept, (List.mem_filter.mp hkept).1, rfl⟩

theorem rules_binarize_perm : g.binarize.rules.Perm g.pairs.1 :=
  rules_binarize ▸ Rule.startFirst_perm

theorem count_lhs_pairs (hs : symbol ∈ g.pairSymbols) :
    (g.pairs.1.map Rule.lhs).count symbol = 1 := by
  obtain ⟨hlhs, hnew⟩ := Rule.mem_defined.mp hs
  have hle := unfolds_pairs.count_lhs_le_one hnew
  have hpos := List.count_pos_iff.mpr (List.mem_map.mpr hlhs)
  omega

/-- What is drawn is used as often as it is defined, since nothing else mentions it. -/
theorem count_mentioned_pairs (hs : symbol ∈ g.pairSymbols) :
    (mentioned g.pairs.1).count symbol = 1 := by
  have hnew := notHas_of_mem_pairSymbols hs
  have hlhs : (g.rules.map Rule.lhs).count symbol = 0 := by
    rw [List.count_eq_zero, List.mem_map]
    rintro ⟨rule, hr, rfl⟩
    exact hnew (has_names_lhs hr)
  have hrhs : (mentioned g.rules).count symbol = 0 := by
    rw [List.count_eq_zero, Rule.mem_mentioned]
    rintro ⟨rule, hr, hmem⟩
    exact hnew (covers_names_rhs hr symbol hmem)
  have hbalance := Rule.count_binarizeAll g.wellFormed (.start g.names) symbol
  have hone := count_lhs_pairs hs
  rw [pairs] at hone ⊢
  omega

theorem length_rulesFor_binarize (hs : symbol ∈ g.pairSymbols) :
    (g.binarize.rulesFor symbol).length = 1 := by
  rw [rulesFor, ← List.countP_eq_length_filter, rules_binarize_perm.countP_eq,
    ← count_lhs_pairs hs, List.count_eq_countP, List.countP_map]
  rfl

theorem exists_abbreviates_binarize : ∃ (τ : Substitution) (rank : Nonterminal → Nat),
    Rule.Abbreviates g.pairSymbols τ rank g.binarize.rules ∧
      (g.binarize.rules.filter fun rule => decide (rule.lhs ∉ g.pairSymbols)).map (Rule.subst τ) =
        startFirst g.start? g.rules := by
  obtain ⟨τ, rank, habbr, hrules⟩ := unfolds_pairs.exists_abbreviates
    (Rule.wellFormed_of_mem_binarizeAll g.wellFormed (.start g.names))
  refine ⟨τ, rank, habbr.of_mem_iff fun rule => rules_binarize_perm.mem_iff, ?_⟩
  have hkept : (g.pairs.1.filter fun rule => decide (rule.lhs ∉ g.pairSymbols)) =
      g.pairs.1.filter fun rule => decide (g.names.Has rule.lhs) := by
    refine List.filter_congr fun rule hr => decide_eq_decide.mpr ?_
    rw [pairSymbols, Rule.mem_defined, not_and_not_right]
    exact ⟨fun h => h ⟨rule, hr, rfl⟩, fun h _ => h⟩
  rw [rules_binarize, ← Rule.startFirst_filter, hkept,
    ← Rule.startFirst_map fun _ => Rule.lhs_subst, hrules]

/-- Breaking sequences into pairs can be undone. There are new symbols, none of them named as any
symbol or token of the grammar, such that each has a single rule and is mentioned a single time, and
all other rules are for symbols of the grammar. Every sequence is a pair without terminals. However
the new symbols are inlined, one after the other as long as any is mentioned, this comes to an end,
and the rules for other symbols are then those of the grammar, the start symbol's first. -/
theorem binarize_spec (g : Grammar) : ∃ symbols : List Nonterminal,
    (∀ symbol ∈ symbols, symbol.name ∉ g.nonterminals.map Nonterminal.name ∧
      symbol.name ∉ g.terminals) ∧
    (∀ symbol ∈ symbols, (g.binarize.rulesFor symbol).length = 1 ∧
      (mentioned g.binarize.rules).count symbol = 1) ∧
    (∀ rule ∈ g.binarize.rules, rule.lhs ∉ symbols → ∃ origin ∈ g.rules, origin.lhs = rule.lhs) ∧
    (∀ rule ∈ g.binarize.rules, rule.rhs.IsPaired) ∧
    Acc (flip (Inlines symbols)) g.binarize.rules ∧
    ∀ rules, Relation.ReflTransGen (Inlines symbols) g.binarize.rules rules →
      (∀ next, ¬Inlines symbols rules next) →
        (∀ symbol ∈ symbols, symbol ∉ mentioned rules) ∧
        rules.filter (fun rule => decide (rule.lhs ∉ symbols)) = startFirst g.start? g.rules := by
  obtain ⟨τ, rank, habbr, hrules⟩ := exists_abbreviates_binarize (g := g)
  refine ⟨g.pairSymbols, fun symbol hs => ?fresh, fun symbol hs => ?once,
    fun rule hr hlhs => ?others, isPaired_binarize, habbr.acc, fun rules hruns hlast => ?inlined⟩
  case fresh =>
    exact not_or.mp fun h => notHas_of_mem_pairSymbols hs (List.mem_append.mpr h)
  case once =>
    refine ⟨length_rulesFor_binarize hs, ?_⟩
    rw [mentioned, (rules_binarize_perm.flatMap_right _).count_eq]
    exact count_mentioned_pairs hs
  case others =>
    have hkept : rule.subst τ ∈ startFirst g.start? g.rules := by
      rw [← hrules]
      exact List.mem_map_of_mem (List.mem_filter.mpr ⟨hr, decide_eq_true hlhs⟩)
    exact ⟨_, Rule.mem_startFirst.mp hkept, rfl⟩
  case inlined =>
    have hdone : ∀ symbol ∈ g.pairSymbols, symbol ∉ mentioned rules := by
      intro symbol hs hmentioned
      obtain ⟨next, hstep⟩ := (habbr.runs hruns).1.exists_inlines hs hmentioned
      exact hlast next hstep
    refine ⟨hdone, ?_⟩
    rw [habbr.eq_of_runs hruns hdone, List.filter_map, ← hrules]
    rfl

end Grammar

end ContextFree
