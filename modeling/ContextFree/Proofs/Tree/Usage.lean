import ContextFree.Proofs.Grammar.Clean
import ContextFree.Proofs.Tree.Derivation

/-!
# Rules in use

In a clean grammar without choices every rule is applied somewhere in a derivation tree with the
start symbol at the root (`Grammar.exists_isParse_applies`). Below a node with the rule there are
trees for all of its items, as those are productive; above it the tree is built along a way on which
the left-hand side is reached. Normal forms are clean, so none of their rules is useless.
-/

namespace ContextFree

namespace Tree

/-- A node of the tree applies the rule. -/
inductive Applies (rule : Rule) : Tree → Prop where
  | root {symbol : Nonterminal} {children : List Tree} (h : ruleAt symbol children = rule) :
      Applies rule (.node symbol children)
  | child {symbol : Nonterminal} {child : Tree} {children : List Tree} (mem : child ∈ children)
      (h : Applies rule child) : Applies rule (.node symbol children)

end Tree

namespace Expr

/-- Without choices, an expression denotes something if all of its nonterminals do. -/
theorem exists_mem_denote {I : Valuation} {e : Expr} (hfree : e.isChoiceFree)
    (h : e.Each fun symbol => ∃ u, u ∈ I symbol) : ∃ w, w ∈ e.denote spell I := by
  induction e with
  | terminal token => exact ⟨[token], rfl⟩
  | nonterminal symbol => exact each_nonterminal.mp h
  | empty => exact ⟨[], rfl⟩
  | seq items ih =>
    rw [each_seq] at h
    rw [isChoiceFree_seq, List.all_eq_true] at hfree
    rw [denote_seq]
    induction items with
    | nil => exact ⟨[], rfl⟩
    | cons item items ihs =>
      obtain ⟨ihitem, ih⟩ := List.forall_mem_cons.mp ih
      obtain ⟨hfirst, hfree⟩ := List.forall_mem_cons.mp hfree
      obtain ⟨hitem, hitems⟩ := List.forall_mem_cons.mp h
      obtain ⟨u, hu⟩ := ihitem hfirst hitem
      obtain ⟨v, hv⟩ := ihs ih hfree hitems
      exact ⟨u ++ v, Language.append_mem_mul hu hv⟩
  | alt => simp at hfree

end Expr

namespace Grammar

variable {g : Grammar} {symbol : Nonterminal} {rule : Rule} {items : List Expr}

/-! ## Trees below -/

theorem Productive.exists_mem_languages (hfree : g.IsChoiceFree) (h : g.Productive symbol) :
    ∃ w, w ∈ g.languages symbol := by
  induction h with
  | @rule rule mem _ ih =>
    obtain ⟨w, hw⟩ := Expr.exists_mem_denote (hfree rule mem) ih
    exact ⟨w, holds_languages mem hw⟩

theorem Productive.exists_tree (hfree : g.IsChoiceFree) (h : g.Productive symbol) :
    ∃ t : Tree, t.IsDerivation g ∧ t.root = .nonterminal symbol := by
  obtain ⟨w, hw⟩ := h.exists_mem_languages hfree
  rw [languages_eq_treeLanguages hfree] at hw
  obtain ⟨t, ht, hroot, -⟩ := hw
  exact ⟨t, ht, hroot⟩

theorem exists_trees_of_each (hfree : g.IsChoiceFree) (hatom : ∀ item ∈ items, item.isAtom)
    (h : ∀ item ∈ items, item.Each g.Productive) :
    ∃ children : List Tree, (∀ child ∈ children, child.IsDerivation g) ∧
      children.map Tree.root = items := by
  induction items with
  | nil => exact ⟨[], by simp, rfl⟩
  | cons item items ih =>
    obtain ⟨hitem, hrest⟩ := List.forall_mem_cons.mp hatom
    obtain ⟨heach, h⟩ := List.forall_mem_cons.mp h
    obtain ⟨children, hchildren, hroots⟩ := ih hrest h
    obtain ⟨t, ht, hroot⟩ : ∃ t : Tree, t.IsDerivation g ∧ t.root = item := by
      cases item with
      | terminal token => exact ⟨.leaf token, .leaf token, rfl⟩
      | nonterminal symbol => exact (Expr.each_nonterminal.mp heach).exists_tree hfree
      | empty => exact ⟨.epsilon, .epsilon, rfl⟩
      | seq | alt => simp [Expr.isAtom] at hitem
    exact ⟨t :: children, List.forall_mem_cons.mpr ⟨ht, hchildren⟩, by simp [hroot, hroots]⟩

/-! ## Trees above -/

/-- Without choices, a nonterminal that a right-hand side mentions is one of its items. -/
theorem mem_items_of_mem_nonterminals (hfree : g.IsChoiceFree) (hr : rule ∈ g.rules)
    (hs : symbol ∈ rule.rhs.nonterminals) : .nonterminal symbol ∈ rule.rhs.items := by
  have hatom : ∀ item ∈ rule.rhs.items, item.isAtom :=
    fun _ => (g.wellFormed rule hr).isAtom_of_mem_items (hfree rule hr)
  generalize rule.rhs = rhs at hs hatom
  cases rhs with
  | seq items =>
    obtain ⟨item, hi, hs⟩ := Expr.mem_nonterminals_seq.mp hs
    have := hatom item hi
    cases item <;> simp_all [Expr.isAtom, Expr.mem_nonterminals, Expr.items]
  | nonterminal => simpa [Expr.mem_nonterminals, Expr.items] using hs
  | terminal | empty => simp [Expr.mem_nonterminals] at hs
  | alt => simpa [Expr.isAtom] using hatom _ (List.mem_singleton_self _)

/-- A tree for a reachable symbol is part of a tree for the start symbol. -/
theorem Reachable.exists_isParse (hfree : g.IsChoiceFree) (hclean : g.IsClean)
    (h : g.Reachable symbol) {t : Tree} (ht : t.IsDerivation g)
    (hroot : t.root = .nonterminal symbol) (happlies : t.Applies rule) :
    ∃ w t', Tree.IsParse g w t' ∧ t'.Applies rule := by
  induction h generalizing t with
  | start h => exact ⟨t.tokens, t, ⟨ht, ⟨_, h, hroot⟩, rfl⟩, happlies⟩
  | @rule above symbol mem _ mentioned ih =>
    obtain ⟨before, after, hitems⟩ :=
      List.append_of_mem (mem_items_of_mem_nonterminals hfree mem mentioned)
    have hatom (item : Expr) (hi : item ∈ above.rhs.items) : item.isAtom :=
      (g.wellFormed above mem).isAtom_of_mem_items (hfree above mem) hi
    have heach (item : Expr) (hi : item ∈ above.rhs.items) : item.Each g.Productive :=
      fun s hs => hclean.productive above mem s (Expr.mem_nonterminals_of_mem_items hi hs)
    rw [hitems] at hatom heach
    obtain ⟨hatom, hatom'⟩ := List.forall_mem_append.mp hatom
    obtain ⟨heach, heach'⟩ := List.forall_mem_append.mp heach
    obtain ⟨ts, hts, hroots⟩ := exists_trees_of_each hfree hatom heach
    obtain ⟨ts', hts', hroots'⟩ := exists_trees_of_each hfree (List.forall_mem_cons.mp hatom').2
      (List.forall_mem_cons.mp heach').2
    refine ih (t := .node above.lhs (ts ++ t :: ts')) (.node mem ?_ ?_) rfl
      (.child (List.mem_append_right ts List.mem_cons_self) happlies)
    · rw [hitems, List.map_append, List.map_cons, hroots, hroot, hroots']
    · exact List.forall_mem_append.mpr ⟨hts, List.forall_mem_cons.mpr ⟨ht, hts'⟩⟩

theorem exists_isParse_applies (hfree : g.IsChoiceFree) (hclean : g.IsClean)
    (hr : rule ∈ g.rules) : ∃ w t, Tree.IsParse g w t ∧ t.Applies rule := by
  have hwf := g.wellFormed rule hr
  have hatom : ∀ item ∈ rule.rhs.items, item.isAtom :=
    fun _ => hwf.isAtom_of_mem_items (hfree rule hr)
  obtain ⟨children, hchildren, hroots⟩ := exists_trees_of_each hfree hatom
    fun item hi s hs => hclean.productive rule hr s (Expr.mem_nonterminals_of_mem_items hi hs)
  exact (hclean.reachable rule hr).exists_isParse hfree hclean
    (.node hr hroots.symm hchildren) rfl (.root (Tree.ruleAt_eq_of_items hwf hroots.symm))

/-! ## Normal forms -/

theorem IsNormal.isCnf (h : g.IsNormal) : g.isCnf := by
  apply List.all_eq_true.mpr
  intro rule hr
  rcases h.rhs_cases hr with hrhs | ⟨token, hrhs⟩ | ⟨left, right, hrhs⟩
  · simp [hrhs, Expr.isCnf, h.epsilon rule hr hrhs]
  · simp [hrhs, Expr.isCnf]
  · simp [hrhs, Expr.isCnf, Expr.nonterminal?]

/-- In a clean grammar all that is mentioned has rules. -/
theorem IsClean.exists_rule (h : g.IsClean) (hs : symbol ∈ g.nonterminals) :
    ∃ rule ∈ g.rules, rule.lhs = symbol := by
  obtain ⟨rule, hr, rfl | hs⟩ := mem_nonterminals.mp hs
  · exact ⟨rule, hr, rfl⟩
  · exact (h.productive rule hr symbol hs).exists_rule

theorem toCnf_rules_eq_nil_iff : (g.toCnf .unbounded).rules = [] ↔ ∀ w, ¬g.Generates w := by
  constructor
  · intro h w hw
    exact not_generates_of_rules_eq_nil h w (g.preserves_toCnf.generated hw)
  · intro h
    apply List.eq_nil_iff_forall_not_mem.mpr
    intro rule hr
    have hfree : (g.toCnf .unbounded).IsChoiceFree := (g.isNormal_toCnf .unbounded).isChoiceFree
    obtain ⟨w, t, ht, -⟩ := exists_isParse_applies hfree (g.isClean_toCnf .unbounded) hr
    exact h w (g.preserves_toCnf.generates ((Tree.exists_isParse_iff hfree).mp ⟨t, ht⟩))

/-- The normal form has the shape that it is named for, and nothing in it is superfluous: the start
symbol is on no right-hand side if it may be empty, all symbols have rules, and all rules are used.
Nothing at all is left just if nothing is generated. -/
theorem toCnf_spec (g : Grammar) :
    let cnf := g.toCnf .unbounded
    cnf.isCnf ∧ cnf.IsChoiceFree ∧
      (∀ start, cnf.start? = some start → ⟨start, .empty⟩ ∈ cnf.rules →
        ∀ rule ∈ cnf.rules, start ∉ rule.rhs.nonterminals) ∧
      (∀ symbol ∈ cnf.nonterminals, ∃ rule ∈ cnf.rules, rule.lhs = symbol) ∧
      (∀ rule ∈ cnf.rules, ∃ w t, Tree.IsParse cnf w t ∧ t.Applies rule) ∧
      (cnf.rules = [] ↔ ∀ w, ¬g.Generates w) := by
  have hnormal := g.isNormal_toCnf .unbounded
  refine ⟨hnormal.isCnf, hnormal.isChoiceFree, fun start _ hr => hnormal.isolated _ hr rfl,
    fun symbol hs => (g.isClean_toCnf .unbounded).exists_rule hs, fun rule hr => ?_,
    toCnf_rules_eq_nil_iff⟩
  exact exists_isParse_applies hnormal.isChoiceFree (g.isClean_toCnf .unbounded) hr

end Grammar

end ContextFree
