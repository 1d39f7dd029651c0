import ContextFree.Proofs.Expr.Substitution
import ContextFree.Proofs.Grammar.Idempotent

/-!
# Splitting and joining undo each other

If no sequence contains a choice, no new symbols are needed: a rule splits into one rule for each of
its branches, which are its alternatives and those of choices among them. Joining collects branches
of the same symbol. So the rules that result from joining split into what the rules before split
into (`Grammar.sameRules_splitAlternatives_joinAlternatives`), and what has been split is joined to
what it was, if each symbol has one rule and no alternative is written twice
(`Grammar.joinAlternatives_splitAlternatives`).
-/

namespace ContextFree

namespace Expr

variable {e branch : Expr} {es : List Expr} {symbol : Nonterminal}

/-! ## Branches -/

mutual

/-- The alternatives of an expression from left to right, where a choice among them counts as its
own alternatives. What is no choice is its only branch. -/
def branches : Expr → List Expr
  | .alt alternatives => branchesAll alternatives
  | e => [e]

/-- The branches of all expressions of a list. -/
def branchesAll : List Expr → List Expr
  | [] => []
  | e :: es => branches e ++ branchesAll es

end

theorem branchesAll_eq_flatMap (es : List Expr) : branchesAll es = es.flatMap branches := by
  induction es with
  | nil => rfl
  | cons e es ih => rw [branchesAll, ih, List.flatMap_cons]

@[simp] theorem branches_alt (alternatives : List Expr) :
    (alt alternatives).branches = alternatives.flatMap branches := by
  rw [branches, branchesAll_eq_flatMap]

theorem branches_of_isChoiceFree (h : e.isChoiceFree) : e.branches = [e] := by
  cases e with
  | terminal | nonterminal | empty | seq => rfl
  | alt => simp at h

theorem flatMap_branches_of_isChoiceFree (h : ∀ e ∈ es, e.isChoiceFree) :
    es.flatMap branches = es := by
  rw [List.flatMap_congr fun e he => branches_of_isChoiceFree (h e he)]
  exact List.flatMap_singleton' es

theorem branches_anyOf (es : List Expr) : (anyOf es).branches = es.flatMap branches := by
  match es with
  | [] => rfl
  | [e] => simp [anyOf]
  | _ :: _ :: _ => exact branches_alt _

theorem not_isAlt_of_mem_branches (h : branch ∈ e.branches) : ¬branch.isAlt := by
  induction e with
  | terminal | nonterminal | empty | seq =>
    rw [List.mem_singleton.mp h]
    simp [isAlt]
  | alt alternatives ih =>
    rw [branches_alt] at h
    obtain ⟨e, he, h⟩ := List.mem_flatMap.mp h
    exact ih e he h

theorem mem_nonterminals_iff_branches :
    symbol ∈ e.nonterminals ↔ ∃ branch ∈ e.branches, symbol ∈ branch.nonterminals := by
  induction e with
  | terminal | nonterminal | empty | seq =>
    exact ⟨fun hs => ⟨_, List.mem_singleton_self _, hs⟩,
      fun ⟨_, hb, hs⟩ => List.mem_singleton.mp hb ▸ hs⟩
  | alt alternatives ih =>
    rw [mem_nonterminals_alt, branches_alt]
    constructor
    · intro ⟨e, he, hs⟩
      obtain ⟨branch, hb, hs⟩ := (ih e he).mp hs
      exact ⟨branch, List.mem_flatMap.mpr ⟨e, he, hb⟩, hs⟩
    · intro ⟨branch, hb, hs⟩
      obtain ⟨e, he, hb⟩ := List.mem_flatMap.mp hb
      exact ⟨e, he, (ih e he).mpr ⟨branch, hb, hs⟩⟩

theorem WellFormed.branches_ne_nil (h : e.WellFormed) : e.branches ≠ [] := by
  induction e with
  | terminal | nonterminal | empty | seq => exact List.cons_ne_nil _ _
  | alt alternatives ih =>
    obtain ⟨two_le, halts⟩ := wellFormed_alt.mp h
    obtain ⟨first, hfirst⟩ := List.exists_mem_of_length_pos (Nat.lt_of_succ_lt two_le)
    obtain ⟨branch, hbranch⟩ :=
      List.exists_mem_of_ne_nil _ (ih first hfirst (halts first hfirst))
    rw [branches_alt]
    exact List.ne_nil_of_mem (List.mem_flatMap.mpr ⟨first, hfirst, hbranch⟩)

/-! ## Choices that no sequence contains -/

/-- There are choices at the top and in choices only. -/
def HasOuterChoices (e : Expr) : Prop :=
  ∀ branch ∈ e.branches, branch.isChoiceFree

theorem hasOuterChoices_alt :
    (alt es).HasOuterChoices ↔ ∀ e ∈ es, e.HasOuterChoices := by
  simp only [HasOuterChoices, branches_alt, List.mem_flatMap]
  refine ⟨fun h e he branch hb => h branch ⟨e, he, hb⟩, ?_⟩
  rintro h branch ⟨e, he, hb⟩
  exact h e he branch hb

theorem hasOuterChoices_of_isChoiceFree (h : e.isChoiceFree) : e.HasOuterChoices := by
  intro branch hb
  rw [branches_of_isChoiceFree h] at hb
  rwa [List.mem_singleton.mp hb]

/-- An expression without choices, or a choice among distinct expressions without choices. -/
def IsFlatChoice : Expr → Prop
  | .alt alternatives => alternatives.Nodup ∧ ∀ e ∈ alternatives, e.isChoiceFree
  | e => e.isChoiceFree

instance : (e : Expr) → Decidable e.IsFlatChoice
  | .alt alternatives =>
    inferInstanceAs (Decidable (alternatives.Nodup ∧ ∀ e ∈ alternatives, e.isChoiceFree))
  | .terminal token => inferInstanceAs (Decidable (terminal token).isChoiceFree)
  | .nonterminal symbol => inferInstanceAs (Decidable (nonterminal symbol).isChoiceFree)
  | .empty => inferInstanceAs (Decidable empty.isChoiceFree)
  | .seq items => inferInstanceAs (Decidable (seq items).isChoiceFree)

/-- A flat choice has distinct branches, no sequence among them contains a choice, and it is the
choice among them. -/
theorem IsFlatChoice.branches (hwf : e.WellFormed) (h : e.IsFlatChoice) :
    e.branches.Nodup ∧ e.HasOuterChoices ∧ anyOf e.branches = e := by
  cases e with
  | terminal | nonterminal | empty | seq =>
    exact ⟨List.nodup_singleton _, hasOuterChoices_of_isChoiceFree h, rfl⟩
  | alt alternatives =>
    obtain ⟨hnodup, hfree⟩ := h
    rw [branches_alt, flatMap_branches_of_isChoiceFree hfree, hasOuterChoices_alt]
    exact ⟨hnodup, fun e he => hasOuterChoices_of_isChoiceFree (hfree e he),
      anyOf_of_two_le (wellFormed_alt.mp hwf).1⟩

/-- Without choices in sequences, no names are drawn. -/
theorem splitAs_eq_branches (hwf : e.WellFormed) (h : e.HasOuterChoices) (lhs : Nonterminal)
    (names : Names) : splitAs lhs e names = (e.branches.map (Rule.mk lhs), names) := by
  induction e with
  | terminal | nonterminal | empty => rfl
  | seq items => exact splitAs_eq_self hwf (h _ (List.mem_singleton_self _))
  | alt alternatives ih =>
    have halts := (wellFormed_alt.mp hwf).2
    rw [hasOuterChoices_alt] at h
    rw [splitAs, branches_alt]
    clear hwf
    induction alternatives with
    | nil => rfl
    | cons e es ihs =>
      obtain ⟨ihe, ihes⟩ := List.forall_mem_cons.mp ih
      obtain ⟨he, hes⟩ := List.forall_mem_cons.mp halts
      obtain ⟨houter, houters⟩ := List.forall_mem_cons.mp h
      rw [splitAllAs, ihe he houter, ihs ihes houters hes, List.flatMap_cons, List.map_append]

end Expr

namespace Rule

variable {rule r : Rule} {rules : List Rule} {symbol : Nonterminal}

/-- The rules for the branches of the right-hand side. -/
def branches (rule : Rule) : List Rule :=
  rule.rhs.branches.map (Rule.mk rule.lhs)

theorem mem_branches : r ∈ rule.branches ↔ r.lhs = rule.lhs ∧ r.rhs ∈ rule.rhs.branches := by
  obtain ⟨lhs, rhs⟩ := r
  simp [branches, eq_comm, and_comm]

theorem splitAll_eq_branches (hwf : ∀ rule ∈ rules, rule.rhs.WellFormed)
    (h : ∀ rule ∈ rules, rule.rhs.HasOuterChoices) (names : Names) :
    splitAll rules names = (rules.flatMap branches, names) := by
  induction rules with
  | nil => rfl
  | cons rule rules ih =>
    obtain ⟨hrule, hrules⟩ := List.forall_mem_cons.mp hwf
    obtain ⟨houter, houters⟩ := List.forall_mem_cons.mp h
    rw [splitAll, Expr.splitAs_eq_branches hrule houter, ih hrules houters]
    rfl

/-! ## Joining branches -/

theorem map_lhs_joinAll (rules : List Rule) :
    (joinAll rules).map lhs = (rules.map lhs).eraseDups := by
  simp [joinAll, Function.comp_def]

theorem mem_joinAll {joined : Rule} : joined ∈ joinAll rules ↔
    (∃ rule ∈ rules, rule.lhs = joined.lhs) ∧ joined.rhs =
      .anyOf ((rules.filter fun rule => decide (rule.lhs = joined.lhs)).map rhs) := by
  obtain ⟨lhs, rhs⟩ := joined
  simp only [joinAll, List.mem_map, List.mem_eraseDups, Rule.mk.injEq]
  constructor
  · rintro ⟨symbol, hsymbol, rfl, rfl⟩
    exact ⟨hsymbol, rfl⟩
  · rintro ⟨hsymbol, hrhs⟩
    exact ⟨lhs, hsymbol, rfl, hrhs.symm⟩

/-- The branches of a joined rule are those of all the rules for the symbol. -/
theorem mem_flatMap_branches_joinAll :
    r ∈ (joinAll rules).flatMap branches ↔ r ∈ rules.flatMap branches := by
  simp only [List.mem_flatMap, mem_branches]
  constructor
  · rintro ⟨joined, hj, hlhs, hrhs⟩
    rw [(mem_joinAll.mp hj).2, Expr.branches_anyOf] at hrhs
    obtain ⟨e, he, hrhs⟩ := List.mem_flatMap.mp hrhs
    obtain ⟨rule, hr, rfl⟩ := List.mem_map.mp he
    obtain ⟨hr, heq⟩ := List.mem_filter.mp hr
    exact ⟨rule, hr, hlhs.trans (of_decide_eq_true heq).symm, hrhs⟩
  · rintro ⟨rule, hr, hlhs, hrhs⟩
    let joined : Rule :=
      ⟨rule.lhs, .anyOf ((rules.filter fun r => decide (r.lhs = rule.lhs)).map rhs)⟩
    refine ⟨joined, mem_joinAll.mpr ⟨⟨rule, hr, rfl⟩, rfl⟩, hlhs, ?_⟩
    rw [Expr.branches_anyOf]
    refine List.mem_flatMap.mpr ⟨rule.rhs, List.mem_map_of_mem ?_, hrhs⟩
    exact List.mem_filter.mpr ⟨hr, by simp⟩

/-- The branches of a rule are rules for the same symbol. -/
theorem eraseDups_map_lhs_branches (h : rule.rhs.WellFormed) :
    (rule.branches.map lhs).eraseDups = [rule.lhs] := by
  have hlhs : rule.branches.map lhs = List.replicate rule.rhs.branches.length rule.lhs := by
    simp [branches, Function.comp_def]
  obtain ⟨n, hn⟩ := Nat.exists_eq_succ_of_ne_zero
    (Nat.pos_iff_ne_zero.mp (List.length_pos_iff.mpr h.branches_ne_nil))
  rw [hlhs, hn, List.replicate_succ, List.eraseDups_cons, List.filter_replicate]
  simp

theorem eraseDups_map_lhs_flatMap_branches (hwf : ∀ rule ∈ rules, rule.rhs.WellFormed) :
    ((rules.flatMap branches).map lhs).eraseDups = (rules.map lhs).eraseDups := by
  induction rules with
  | nil => rfl
  | cons rule rules ih =>
    obtain ⟨hrule, hrules⟩ := List.forall_mem_cons.mp hwf
    rw [List.flatMap_cons, List.map_append, ← eraseDups_append_eraseDups,
      eraseDups_map_lhs_branches hrule, ih hrules]
    exact eraseDups_append_eraseDups [rule.lhs] (rules.map lhs)

theorem filter_lhs_flatMap_branches (rules : List Rule) (symbol : Nonterminal) :
    (rules.flatMap branches).filter (fun r => decide (r.lhs = symbol)) =
      (rules.filter fun r => decide (r.lhs = symbol)).flatMap branches := by
  induction rules with
  | nil => rfl
  | cons rule rules ih =>
    rw [List.flatMap_cons, List.filter_append, ih, List.filter_cons]
    split
    · next h =>
      rw [List.flatMap_cons, List.filter_eq_self.mpr]
      exact fun r hr => (mem_branches.mp hr).1 ▸ h
    · next h =>
      rw [List.filter_eq_nil_iff.mpr, List.nil_append]
      exact fun r hr => (mem_branches.mp hr).1 ▸ h

/-- A rule is what its branches are joined to. -/
theorem joinAll_flatMap_branches (hwf : ∀ rule ∈ rules, rule.rhs.WellFormed)
    (hnodup : (rules.map lhs).Nodup) (hself : ∀ rule ∈ rules, .anyOf rule.rhs.branches = rule.rhs) :
    joinAll (rules.flatMap branches) = rules := by
  have hrule : ∀ rule ∈ rules, (⟨rule.lhs, .anyOf (((rules.flatMap branches).filter fun r =>
      decide (r.lhs = rule.lhs)).map rhs)⟩ : Rule) = rule := by
    intro rule hr
    have hrhs : rule.branches.map rhs = rule.rhs.branches := by simp [branches, Function.comp_def]
    rw [filter_lhs_flatMap_branches, filter_lhs_eq_singleton hnodup hr, List.flatMap_singleton,
      hrhs, hself rule hr]
  rw [joinAll, eraseDups_map_lhs_flatMap_branches hwf, eraseDups_eq_self hnodup, List.map_map]
  exact (List.map_congr_left hrule).trans (List.map_id rules)

theorem nodup_flatMap_branches (hnodup : (rules.map lhs).Nodup)
    (h : ∀ rule ∈ rules, rule.rhs.branches.Nodup) : (rules.flatMap branches).Nodup := by
  refine List.nodup_flatMap.mpr ⟨fun rule hr => ?_, ?_⟩
  · exact (h rule hr).map fun _ _ heq => (Rule.mk.inj heq).2
  · refine (List.pairwise_map.mp hnodup).imp fun hne r hr hr' => hne ?_
    exact (mem_branches.mp hr).1.symm.trans (mem_branches.mp hr').1

end Rule

namespace Grammar

variable {g : Grammar} {rule : Rule}

/-- No sequence contains a choice. -/
def HasOuterChoices (g : Grammar) : Prop :=
  ∀ rule ∈ g.rules, rule.rhs.HasOuterChoices

theorem IsChoiceFree.hasOuterChoices (h : g.IsChoiceFree) : g.HasOuterChoices :=
  fun rule hr => Expr.hasOuterChoices_of_isChoiceFree (h rule hr)

theorem HasOuterChoices.rules_splitAlternatives (h : g.HasOuterChoices) :
    g.splitAlternatives.rules = (g.rules.flatMap Rule.branches).eraseDups := by
  rw [splitAlternatives, rules_ofRules, Rule.splitAll_eq_branches g.wellFormed h]

theorem HasOuterChoices.mem_splitAlternatives (h : g.HasOuterChoices) :
    rule ∈ g.splitAlternatives.rules ↔ rule ∈ g.rules.flatMap Rule.branches := by
  rw [h.rules_splitAlternatives, List.mem_eraseDups]

/-! ## One rule for each symbol -/

theorem rules_joinAlternatives (g : Grammar) : g.joinAlternatives.rules = Rule.joinAll g.rules := by
  rw [joinAlternatives, rules_ofRules]
  apply eraseDups_eq_self
  apply List.Nodup.of_map Rule.lhs
  rw [Rule.map_lhs_joinAll]
  exact nodup_eraseDups _

/-- A branch of a joined rule comes from one of the rules for the same symbol. -/
theorem exists_of_mem_branches_joinAlternatives {joined : Rule} {branch : Expr}
    (hj : joined ∈ g.joinAlternatives.rules) (hb : branch ∈ joined.rhs.branches) :
    ∃ rule ∈ g.rules, rule.lhs = joined.lhs ∧ branch ∈ rule.rhs.branches := by
  rw [rules_joinAlternatives] at hj
  have hmem : ⟨joined.lhs, branch⟩ ∈ (Rule.joinAll g.rules).flatMap Rule.branches :=
    List.mem_flatMap.mpr ⟨joined, hj, Rule.mem_branches.mpr ⟨rfl, hb⟩⟩
  obtain ⟨rule, hr, hb⟩ := List.mem_flatMap.mp (Rule.mem_flatMap_branches_joinAll.mp hmem)
  obtain ⟨hlhs, hb⟩ := Rule.mem_branches.mp hb
  exact ⟨rule, hr, hlhs.symm, hb⟩

theorem HasOuterChoices.joinAlternatives (h : g.HasOuterChoices) :
    g.joinAlternatives.HasOuterChoices := by
  intro joined hj branch hb
  obtain ⟨rule, hr, -, hb⟩ := exists_of_mem_branches_joinAlternatives hj hb
  exact h rule hr branch hb

theorem HasOuterChoices.sameRules_splitAlternatives_joinAlternatives (h : g.HasOuterChoices) :
    g.joinAlternatives.splitAlternatives.SameRules g.splitAlternatives := by
  intro rule
  rw [h.joinAlternatives.mem_splitAlternatives, h.mem_splitAlternatives, rules_joinAlternatives,
    Rule.mem_flatMap_branches_joinAll]

theorem joinAlternatives_splitAlternatives (hnodup : (g.rules.map Rule.lhs).Nodup)
    (h : ∀ rule ∈ g.rules, rule.rhs.IsFlatChoice) : g.splitAlternatives.joinAlternatives = g := by
  have hflat := fun rule hr => (h rule hr).branches (g.wellFormed rule hr)
  have hsplit : g.splitAlternatives.rules = g.rules.flatMap Rule.branches := by
    rw [HasOuterChoices.rules_splitAlternatives fun rule hr => (hflat rule hr).2.1,
      eraseDups_eq_self (Rule.nodup_flatMap_branches hnodup fun rule hr => (hflat rule hr).1)]
  apply ext
  rw [rules_joinAlternatives, hsplit]
  exact Rule.joinAll_flatMap_branches g.wellFormed hnodup fun rule hr => (hflat rule hr).2.2

/-- What is joined splits into the rules that there were, if these had no choices. What is split is
joined to what it was, even in its order, if each symbol had one rule and its alternatives were
distinct and without choices. In any case joining leaves one rule for each left-hand side, in order
of first appearance, and changes nothing about what the symbols derive. -/
theorem splitting_joining_spec (g : Grammar) :
    (g.IsChoiceFree → g.joinAlternatives.splitAlternatives.SameRules g) ∧
    ((g.rules.map Rule.lhs).Nodup → (∀ rule ∈ g.rules, rule.rhs.IsFlatChoice) →
      g.splitAlternatives.joinAlternatives = g) ∧
    g.joinAlternatives.rules.map Rule.lhs = (g.rules.map Rule.lhs).eraseDups ∧
    ∀ symbol w, g.joinAlternatives.Derives (.nonterminal symbol) w ↔
      g.Derives (.nonterminal symbol) w := by
  refine ⟨fun hfree => ?_, joinAlternatives_splitAlternatives, ?_, fun symbol w => ?_⟩
  · have hsame := hfree.hasOuterChoices.sameRules_splitAlternatives_joinAlternatives
    rwa [splitAlternatives_eq_self hfree] at hsame
  · rw [rules_joinAlternatives, Rule.map_lhs_joinAll]
  · rw [← mem_languages, ← mem_languages, languages_joinAlternatives]

/-- Rules of different symbols in turn. They are not in order any more after joining and
splitting. -/
theorem splitting_joining_spec_interleaved : ∃ g h : Grammar,
    g.rules = [⟨⟨"S"⟩, .terminal "a"⟩, ⟨⟨"A"⟩, .empty⟩,
      ⟨⟨"S"⟩, .seq [.nonterminal ⟨"A"⟩, .nonterminal ⟨"S"⟩]⟩] ∧
    h.rules = [⟨⟨"S"⟩, .alt [.terminal "a", .seq [.nonterminal ⟨"A"⟩, .nonterminal ⟨"S"⟩]]⟩,
      ⟨⟨"A"⟩, .empty⟩] ∧
    g.IsChoiceFree ∧ g.joinAlternatives = h ∧ h.splitAlternatives.SameRules g ∧
    h.splitAlternatives.rules ≠ g.rules ∧
    (h.rules.map Rule.lhs).Nodup ∧ (∀ rule ∈ h.rules, rule.rhs.IsFlatChoice) ∧
    h.splitAlternatives.joinAlternatives = h := by
  let pair : Expr := .seq [.nonterminal ⟨"A"⟩, .nonterminal ⟨"S"⟩]
  let g : Grammar :=
    ⟨[⟨⟨"S"⟩, .terminal "a"⟩, ⟨⟨"A"⟩, .empty⟩, ⟨⟨"S"⟩, pair⟩], by decide, by decide⟩
  let h : Grammar :=
    ⟨[⟨⟨"S"⟩, .alt [.terminal "a", pair]⟩, ⟨⟨"A"⟩, .empty⟩], by decide, by decide⟩
  have hfree : ∀ rule ∈ g.rules, rule.rhs.isChoiceFree := by decide
  have hjoined : g.joinAlternatives = h := ext (by decide +kernel)
  have hnodup : (h.rules.map Rule.lhs).Nodup := by decide
  have hflat : ∀ rule ∈ h.rules, rule.rhs.IsFlatChoice := by decide
  have hsame := (splitting_joining_spec g).1 hfree
  rw [hjoined] at hsame
  exact ⟨g, h, rfl, rfl, hfree, hjoined, hsame, by decide +kernel, hnodup, hflat,
    (splitting_joining_spec h).2.1 hnodup hflat⟩

end Grammar

end ContextFree
