import ContextFree.Proofs.Grammar.Choice
import ContextFree.Grammar.Language

/-!
# Trees for everything that is derived

In a grammar without choices each node of a derivation tree shows which rule it applies, since the
items of a right-hand side determine it. Such a grammar derives from a nonterminal just the tokens
of the trees with that root.
-/

namespace ContextFree

namespace Tree

variable {g : Grammar} {symbol : Nonterminal} {children : List Tree} {t : Tree}

/-- The rule that a node with the given children applies. -/
def ruleAt (symbol : Nonterminal) (children : List Tree) : Rule :=
  ⟨symbol, .ofFactors (children.map root)⟩

theorem root_eq_terminal_iff {token : Token} : t.root = .terminal token ↔ t = .leaf token := by
  cases t <;> simp [root]

theorem root_eq_empty_iff : t.root = .empty ↔ t = .epsilon := by
  cases t <;> simp [root]

theorem items_ruleAt (symbol : Nonterminal) (h : children ≠ []) :
    (ruleAt symbol children).rhs.items = children.map root := by
  match children, h with
  | [t], _ => cases t <;> rfl
  | _ :: _ :: _, _ => rfl

theorem ruleAt_eq_of_items {rule : Rule} (hwf : rule.rhs.WellFormed)
    (h : rule.rhs.items = children.map root) : ruleAt rule.lhs children = rule := by
  rw [ruleAt, ← h, hwf.ofFactors_items]

theorem isDerivation_node_iff : (node symbol children).IsDerivation g ↔
    children ≠ [] ∧ ruleAt symbol children ∈ g.rules ∧
      ∀ child ∈ children, child.IsDerivation g := by
  constructor
  · intro h
    rcases h with _ | _ | @⟨rule, _, mem, items, below⟩
    refine ⟨?_, ?_, below⟩
    · rintro rfl
      exact (g.wellFormed rule mem).items_ne_nil items
    · rw [ruleAt_eq_of_items (g.wellFormed rule mem) items]
      exact mem
  · intro h
    obtain ⟨hne, mem, below⟩ := h
    exact .node mem (items_ruleAt symbol hne) below

theorem IsDerivation.exists_children (h : t.IsDerivation g) (hroot : t.root = .nonterminal symbol) :
    ∃ children, t = .node symbol children := by
  cases h with
  | leaf | epsilon => simp [root] at hroot
  | @node rule children => exact ⟨children, by rw [← Expr.nonterminal.inj hroot]⟩

theorem IsDerivation.mem_languages (h : t.IsDerivation g) (hroot : t.root = .nonterminal symbol) :
    t.tokens ∈ g.languages symbol := by
  rw [Grammar.mem_languages, ← hroot]
  exact h.derives

end Tree

namespace Grammar

variable {g : Grammar} {symbol : Nonterminal} {w : List Token}

/-! ## Existence of trees -/

/-- The tokens of the derivation trees with a nonterminal at the root. -/
def treeLanguages (g : Grammar) : Valuation :=
  fun symbol => {w | ∃ t : Tree, t.IsDerivation g ∧ t.root = .nonterminal symbol ∧ t.tokens = w}

/-- An atom that denotes `w` by way of trees has such a tree itself. -/
theorem exists_tree_of_mem_denote {item : Expr} (hatom : item.isAtom)
    (h : w ∈ item.denote spell g.treeLanguages) :
    ∃ t : Tree, t.IsDerivation g ∧ t.root = item ∧ t.tokens = w := by
  cases item with
  | terminal token =>
    obtain rfl := mem_spell.mp h
    exact ⟨.leaf token, .leaf token, rfl, rfl⟩
  | nonterminal => exact h
  | empty =>
    obtain rfl : w = [] := h
    exact ⟨.epsilon, .epsilon, rfl, rfl⟩
  | seq | alt => simp [Expr.isAtom] at hatom

theorem exists_trees_of_mem_prod {items : List Expr} (hatom : ∀ item ∈ items, item.isAtom)
    (h : w ∈ (items.map (Expr.denote spell g.treeLanguages)).prod) :
    ∃ children : List Tree, (∀ child ∈ children, child.IsDerivation g) ∧
      children.map Tree.root = items ∧ children.flatMap Tree.tokens = w := by
  induction items generalizing w with
  | nil => exact ⟨[], by simp, rfl, Eq.symm h⟩
  | cons item items ih =>
    obtain ⟨hitem, hitems⟩ := List.forall_mem_cons.mp hatom
    rw [List.map_cons, List.prod_cons] at h
    obtain ⟨u, hu, v, hv, rfl⟩ := Language.mem_mul.mp h
    obtain ⟨t, ht, hroot, rfl⟩ := exists_tree_of_mem_denote hitem hu
    obtain ⟨ts, hts, hroots, rfl⟩ := ih hitems hv
    exact ⟨t :: ts, List.forall_mem_cons.mpr ⟨ht, hts⟩, by simp [hroot, hroots], rfl⟩

theorem languages_eq_treeLanguages (hfree : g.IsChoiceFree) : g.languages = g.treeLanguages := by
  refine funext fun symbol => le_antisymm (languages_le (fun rule hr w hw => ?_) symbol) ?_
  · have hatom (item : Expr) (hi : item ∈ rule.rhs.items) : item.isAtom :=
      (g.wellFormed rule hr).isAtom_of_mem_items (hfree rule hr) hi
    have hprod : w ∈ (rule.rhs.items.map (Expr.denote spell g.treeLanguages)).prod := by
      rw [Expr.prod_denote_items]
      exact hw
    obtain ⟨children, hchildren, hroots, rfl⟩ := exists_trees_of_mem_prod hatom hprod
    exact ⟨.node rule.lhs children, .node hr hroots.symm hchildren, rfl, Tree.tokens_node _ _⟩
  · intro _ h
    obtain ⟨t, ht, hroot, rfl⟩ := h
    exact ht.mem_languages hroot

end Grammar

namespace Tree

variable {g : Grammar} {w : List Token}

/-! ## Parses -/

/-- The tree derives the tokens from the start symbol. -/
structure IsParse (g : Grammar) (w : List Token) (t : Tree) : Prop where
  isDerivation : t.IsDerivation g
  start : ∃ start, g.start? = some start ∧ t.root = .nonterminal start
  tokens : t.tokens = w

theorem exists_isParse_iff (hfree : g.IsChoiceFree) :
    (∃ t, IsParse g w t) ↔ g.Generates w := by
  rw [Grammar.generates_iff, Grammar.languages_eq_treeLanguages hfree]
  constructor
  · intro h
    obtain ⟨t, ht, ⟨start, hstart, hroot⟩, htokens⟩ := h
    exact ⟨start, hstart, t, ht, hroot, htokens⟩
  · intro h
    obtain ⟨start, hstart, t, ht, hroot, htokens⟩ := h
    exact ⟨t, ht, ⟨start, hstart, hroot⟩, htokens⟩

end Tree

end ContextFree
