import ContextFree.Proofs.Unger.Trees

/-!
# Without empty parts

If empty parts are forbidden, then the search leaves out the trees in which one of several siblings
has no tokens, and finds all others in the same order (`Unger.fits_forbidden`). A partition with an
empty part leads only to trees of this kind, as every child covers its part. When no nonterminal
derives the empty list there are no such trees, since only a single item may be the empty string.
-/

namespace ContextFree

namespace Tree

/-! ## Siblings with tokens -/

mutual

/-- Whether every child of every node with several children has tokens. -/
def siblingsHaveTokens : Tree → Bool
  | .leaf _ | .epsilon => true
  | .node _ children =>
    (2 ≤ children.length → ∀ child ∈ children, child.tokens ≠ []) && allSiblingsHaveTokens children

/-- Whether this is so in each of the trees. -/
def allSiblingsHaveTokens : List Tree → Bool
  | [] => true
  | t :: ts => siblingsHaveTokens t && allSiblingsHaveTokens ts

end

theorem allSiblingsHaveTokens_eq_all (ts : List Tree) :
    allSiblingsHaveTokens ts = ts.all siblingsHaveTokens := by
  induction ts with
  | nil => rfl
  | cons t ts ih => rw [allSiblingsHaveTokens, ih, List.all_cons]

variable {g : Grammar} {symbol : Nonterminal} {children : List Tree} {t : Tree}

theorem siblingsHaveTokens_node_iff : (node symbol children).siblingsHaveTokens ↔
    (2 ≤ children.length → ∀ child ∈ children, child.tokens ≠ []) ∧
      ∀ child ∈ children, child.siblingsHaveTokens := by
  rw [siblingsHaveTokens, allSiblingsHaveTokens_eq_all, Bool.and_eq_true, decide_eq_true_eq,
    List.all_eq_true]

example : (node ⟨"S"⟩ [node ⟨"A"⟩ [epsilon]]).siblingsHaveTokens ∧
    ¬(node ⟨"S"⟩ [node ⟨"A"⟩ [epsilon], leaf "b"]).siblingsHaveTokens := by decide

/-- Only the empty string has no tokens when no nonterminal derives the empty list. -/
theorem IsDerivation.tokens_ne_nil (ht : t.IsDerivation g)
    (hproper : ∀ symbol ∈ g.nonterminals, ¬g.Derives (.nonterminal symbol) [])
    (hroot : t.root ≠ .empty) : t.tokens ≠ [] := by
  intro htokens
  cases t with
  | leaf token => simp at htokens
  | epsilon => exact hroot rfl
  | node symbol children =>
    have hrule := (isDerivation_node_iff.mp ht).2.1
    refine hproper symbol (Grammar.mem_nonterminals.mpr ⟨_, hrule, .inl rfl⟩) ?_
    rw [← htokens]
    exact ht.derives

theorem IsDerivation.siblingsHaveTokens (ht : t.IsDerivation g)
    (hproper : ∀ symbol ∈ g.nonterminals, ¬g.Derives (.nonterminal symbol) []) :
    t.siblingsHaveTokens := by
  induction ht with
  | leaf | epsilon => rfl
  | @node rule children mem items below ih =>
    refine siblingsHaveTokens_node_iff.mpr ⟨fun htwo child hc => ?_, ih⟩
    refine (below child hc).tokens_ne_nil hproper ?_
    have hitem : child.root ∈ rule.rhs.items := items ▸ List.mem_map_of_mem hc
    have hlength : 2 ≤ rule.rhs.items.length := by rwa [items, List.length_map]
    cases hrhs : rule.rhs with
    | seq items =>
      have hwf := g.wellFormed _ mem
      rw [hrhs] at hwf hitem
      have hfactor := (Expr.wellFormed_seq.mp hwf).2.1 _ hitem
      intro hempty
      simp [hempty, Expr.isFactor] at hfactor
    | terminal | nonterminal | empty | alt => simp [hrhs, Expr.items] at hlength

end Tree

namespace Unger

open Placed (row)

variable {g : Grammar} {input : List Token} {active : List Attempt} {attempt : Attempt}
  {depth : Nat} {span : Span} {symbol : Nonterminal} {items : List Expr} {children : List Tree}
  {pairs : List (Expr × Span)}
  {derive derive' : Nonterminal → Span → List Tree}

/-! ## Partitions that lead to such trees -/

/-- Each of several children has tokens just when their partition is one without empty parts. -/
theorem siblingsHaveTokens_node_of_fills (hfills : Fills g input active items span children)
    (hpairs : pairs = items.zip ((row span.start children).map Placed.span)) :
    (Tree.node symbol children).siblingsHaveTokens =
      (Span.Admits .forbidden (pairs.map Prod.snd) && children.all Tree.siblingsHaveTokens) := by
  have hlength : (row span.start children).length = children.length := by
    rw [← List.length_map Placed.tree, Placed.map_tree_row]
  have hparts : pairs.map Prod.snd = (row span.start children).map Placed.span := by
    rw [hpairs, List.map_snd_zip]
    rw [← hfills.roots, List.length_map, List.length_map, hlength]
  have hpart (p : Placed) : p.span.start < p.span.stop ↔ p.tree.tokens ≠ [] := by
    rw [← List.length_pos_iff]
    exact Nat.lt_add_right_iff_pos
  have hall : (∀ p ∈ row span.start children, p.tree.tokens ≠ []) ↔
      ∀ child ∈ children, child.tokens ≠ [] := by
    rw [← List.forall_mem_map (P := fun t : Tree => t.tokens ≠ []), Placed.map_tree_row]
  have hadmits : Span.Admits .forbidden ((row span.start children).map Placed.span) ↔
      (2 ≤ children.length → ∀ child ∈ children, child.tokens ≠ []) := by
    simp only [Span.Admits, true_imp_iff, List.length_map, hlength, List.forall_mem_map, hpart,
      hall]
  rw [Bool.eq_iff_iff, Tree.siblingsHaveTokens_node_iff, Bool.and_eq_true, decide_eq_true_eq,
    List.all_eq_true, hparts, hadmits]

theorem candidates_forbidden (hspan : attempt.span.Within input) :
    candidates g .forbidden input attempt =
      (candidates g .allowed input attempt).filter fun pairs =>
        Span.Admits .forbidden (pairs.map Prod.snd) := by
  simp only [candidates]
  rw [Span.partitions_forbidden hspan.le, List.filter_comm,
    List.filter_map (l := Span.partitions ..)]
  refine congrArg _ (congrArg _ (List.filter_congr fun parts hparts => ?_))
  rw [Function.comp_apply, List.map_snd_zip (Span.length_of_mem_partitions hparts).le]

/-- A list of children is kept just when each of them is. -/
theorem filter_combinations (h : ∀ symbol, ∀ pair ∈ pairs,
      derive' symbol pair.2 = (derive symbol pair.2).filter Tree.siblingsHaveTokens) :
    (combinations derive pairs).filter (·.all Tree.siblingsHaveTokens) =
      combinations derive' pairs := by
  induction pairs with
  | nil => rfl
  | cons pair pairs ih =>
    obtain ⟨item, part⟩ := pair
    have hpart (symbol : Nonterminal) := h symbol _ List.mem_cons_self
    have hrest := ih fun symbol pair hp => h symbol pair (List.mem_cons_of_mem _ hp)
    have hoptions : options derive' item part =
        (options derive item part).filter Tree.siblingsHaveTokens := by
      cases item with
      | nonterminal symbol => exact hpart symbol
      | terminal | empty | seq | alt => rfl
    rw [combinations, combinations, hoptions, List.filter_flatMap, flatMap_filter]
    refine List.flatMap_congr fun tree _ => ?_
    rw [List.filter_map]
    cases htree : tree.siblingsHaveTokens <;> simp [Function.comp_def, htree, hrest]

/-! ## The search -/

theorem found_forbidden {part : Span} (symbol : Nonterminal)
    (hfits : ∀ rule ∈ g.rules, fits g .forbidden input depth active ⟨part, rule⟩ =
      (fits g .allowed input depth active ⟨part, rule⟩).filter Tree.siblingsHaveTokens) :
    found g .forbidden input depth active symbol part =
      (found g .allowed input depth active symbol part).filter Tree.siblingsHaveTokens := by
  rw [found, found, List.filter_flatMap]
  exact List.flatMap_congr fun rule hrule => hfits rule (Grammar.mem_rulesFor.mp hrule).1

theorem fits_forbidden (hfree : g.IsChoiceFree) (hroom : Room g input depth active)
    (hr : attempt.rule ∈ g.rules) (hspan : attempt.span.Within input) :
    fits g .forbidden input depth active attempt =
      (fits g .allowed input depth active attempt).filter Tree.siblingsHaveTokens := by
  induction depth generalizing active attempt with
  | zero => rfl
  | succ depth ih =>
    by_cases hactive : attempt ∈ active
    · rw [fits_of_mem hactive, fits_of_mem hactive, List.filter_nil]
    have hroom := hroom.enter hactive (mem_attempts hr hspan)
    have hchildren := mem_combinations_found hfree hroom hr hspan
    rw [fits_of_notMem hactive, fits_of_notMem hactive, List.filter_map, List.filter_flatMap,
      candidates_forbidden hspan, flatMap_filter]
    refine congrArg (List.map _) (List.flatMap_congr fun pairs hpairs => ?_)
    have hkept := filter_combinations fun symbol pair hpair => found_forbidden symbol
      fun rule hrule => ih hroom hrule (within_of_mem_candidates hspan hpairs pair hpair)
    have hnode (children : List Tree)
        (hc : children ∈ combinations (found g .allowed input depth (attempt :: active)) pairs) :
        (Tree.siblingsHaveTokens ∘ Tree.node attempt.rule.lhs) children =
          (Span.Admits .forbidden (pairs.map Prod.snd) &&
            children.all Tree.siblingsHaveTokens) := by
      obtain ⟨hfills, heq⟩ := (hchildren pairs children).mp ⟨hpairs, hc⟩
      exact siblingsHaveTokens_node_of_fills hfills heq
    rw [List.filter_congr hnode, ← hkept]
    by_cases hadmits : Span.Admits .forbidden (pairs.map Prod.snd) <;> simp [hadmits]

end Unger

namespace Grammar

open Unger

/-- The search ends in any case. Without empty parts it finds, in the same order, those of the trees
in which each of several siblings has tokens, which are all of them if no nonterminal derives the
empty list. -/
theorem ungerTrees_forbidden_spec (g : Grammar) :
    (∀ emptyParts w, (search g.splitAlternatives emptyParts w).map Prod.fst =
        some (g.ungerTrees emptyParts w)) ∧
      (∀ w, g.ungerTrees .forbidden w =
        (g.ungerTrees .allowed w).filter Tree.siblingsHaveTokens) ∧
      ((∀ symbol ∈ g.splitAlternatives.nonterminals,
          ¬g.splitAlternatives.Derives (.nonterminal symbol) []) →
        ∀ w, g.ungerTrees .forbidden w = g.ungerTrees .allowed w) := by
  have hfilter (w : List Token) : g.ungerTrees .forbidden w =
      (g.ungerTrees .allowed w).filter Tree.siblingsHaveTokens := by
    have hwithin : (⟨0, w.length⟩ : Span).Within w := ⟨Nat.zero_le _, le_rfl⟩
    rw [ungerTrees_eq, ungerTrees_eq]
    cases g.splitAlternatives.start? with
    | none => rfl
    | some start =>
      exact found_forbidden start fun rule hrule =>
        fits_forbidden splitAlternatives_isChoiceFree room_maxDepth hrule hwithin
  refine ⟨fun emptyParts w => ?_, hfilter, fun hproper w => ?_⟩
  · obtain ⟨cycles, hsearch⟩ := search_eq g.splitAlternatives emptyParts w
    rw [ungerTrees, hsearch]
    rfl
  · rw [hfilter]
    refine List.filter_eq_self.mpr fun t ht => ?_
    exact (mem_ungerTrees_allowed.mp ht).1.isDerivation.siblingsHaveTokens hproper

end Grammar

end ContextFree
