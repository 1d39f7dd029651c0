import Mathlib.Logic.Relation
import ContextFree.Proofs.Tree.Derivation
import ContextFree.Unger.Search

/-!
# Trees at positions of the input

A tree that stands at a position of the input covers a span, and the trees below it stand side by
side within that span. A tree repeats an attempt when a node below another one applies the same rule
to the same span. The lower of the two trees can then take the place of the upper one, so a smallest
tree for given tokens does not repeat anything.
-/

namespace ContextFree

open Relation (ReflTransGen TransGen)

namespace Tree

/-- The number of nodes and leaves. -/
def size : Tree → Nat :=
  fold (fun _ => 1) 1 fun _ sizes => sizes.sum + 1

@[simp] theorem size_node (symbol : Nonterminal) (children : List Tree) :
    size (.node symbol children) = (children.map size).sum + 1 := by
  rw [size, fold_node]

end Tree

/-- A tree whose first token is at a position of the input, counted from 0. -/
structure Placed where
  start : Nat
  tree : Tree

namespace Placed

variable {g : Grammar} {p q r : Placed}

/-- The part of the input that the tree covers. -/
def span (p : Placed) : Span :=
  ⟨p.start, p.start + p.tree.tokens.length⟩

/-- Trees side by side. -/
def row (start : Nat) : List Tree → List Placed
  | [] => []
  | t :: ts => ⟨start, t⟩ :: row (start + t.tokens.length) ts

/-- The trees right below, each at its own position. -/
def below (p : Placed) : List Placed :=
  row p.start (p.tree.children?.getD [])

/-- The second tree is right below the first. -/
def Child (p q : Placed) : Prop :=
  q ∈ p.below

/-- The rule that the root applies, with the span that it is applied to. -/
def attempt? (p : Placed) : Option Unger.Attempt :=
  match p.tree with
  | .node symbol children => some ⟨p.span, Tree.ruleAt symbol children⟩
  | .leaf _ | .epsilon => none

/-- A node of the tree makes the same attempt as some node above it. -/
def Repeats (p : Placed) : Prop :=
  ∃ upper lower, ReflTransGen Child p upper ∧ TransGen Child upper lower ∧
    ∃ attempt, upper.attempt? = some attempt ∧ lower.attempt? = some attempt

/-! ## Rows -/

variable {start : Nat} {ts : List Tree} {symbol : Nonterminal}

theorem mem_row : p ∈ row start ts ↔ ∃ before after, ts = before ++ p.tree :: after ∧
    p.start = start + (before.flatMap Tree.tokens).length := by
  induction ts generalizing start with
  | nil => simp [row]
  | cons t ts ih =>
    rw [row, List.mem_cons, ih]
    constructor
    · intro h
      rcases h with rfl | ⟨before, after, rfl, hstart⟩
      · exact ⟨[], ts, rfl, rfl⟩
      · exact ⟨t :: before, after, rfl, by simp [hstart]; omega⟩
    · intro h
      obtain ⟨before, after, hts, hstart⟩ := h
      match before with
      | [] =>
        obtain ⟨rfl, rfl⟩ := List.cons.inj hts
        exact .inl (by cases p; simp_all)
      | _ :: before =>
        obtain ⟨rfl, rfl⟩ := List.cons.inj hts
        exact .inr ⟨before, after, rfl, by simp [hstart]; omega⟩

@[simp] theorem map_tree_row : (row start ts).map Placed.tree = ts := by
  induction ts generalizing start with
  | nil => rfl
  | cons t ts ih => rw [row, List.map_cons, ih]

@[simp] theorem below_node : (⟨start, .node symbol ts⟩ : Placed).below = row start ts := rfl

theorem Child.exists_children (h : Child p q) : ∃ symbol before after,
    p.tree = .node symbol (before ++ q.tree :: after) ∧
      q.start = p.start + (before.flatMap Tree.tokens).length := by
  obtain ⟨start, t⟩ := p
  cases t with
  | leaf | epsilon => simp [Child, below, Tree.children?, row] at h
  | node symbol children =>
    obtain ⟨before, after, rfl, hstart⟩ := mem_row.mp h
    exact ⟨symbol, before, after, rfl, hstart⟩

/-! ## Going down -/

theorem isDerivation_of_child (h : Child p q) (hp : p.tree.IsDerivation g) :
    q.tree.IsDerivation g := by
  obtain ⟨symbol, before, after, htree, -⟩ := h.exists_children
  rw [htree, Tree.isDerivation_node_iff] at hp
  exact hp.2.2 q.tree (by simp)

theorem isDerivation_of_reflTransGen (h : ReflTransGen Child p q) (hp : p.tree.IsDerivation g) :
    q.tree.IsDerivation g := by
  induction h with
  | refl => exact hp
  | tail _ hchild ih => exact isDerivation_of_child hchild ih

theorem size_lt_of_transGen (h : TransGen Child p q) : q.tree.size < p.tree.size := by
  have hstep {p q : Placed} (h : Child p q) : q.tree.size < p.tree.size := by
    obtain ⟨symbol, before, after, htree, -⟩ := h.exists_children
    rw [htree]
    simp
    omega
  induction h with
  | single hchild => exact hstep hchild
  | tail _ hchild ih => exact (hstep hchild).trans ih

/-- The tokens of a lower tree are those of the upper one at its position. -/
theorem exists_tokens_of_transGen (h : TransGen Child p q) : ∃ u v,
    p.tree.tokens = u ++ q.tree.tokens ++ v ∧ q.start = p.start + u.length := by
  have hstep {p q : Placed} (h : Child p q) : ∃ u v,
      p.tree.tokens = u ++ q.tree.tokens ++ v ∧ q.start = p.start + u.length := by
    obtain ⟨symbol, before, after, htree, hstart⟩ := h.exists_children
    refine ⟨before.flatMap Tree.tokens, after.flatMap Tree.tokens, ?_, hstart⟩
    rw [htree]
    simp
  induction h with
  | single hchild => exact hstep hchild
  | tail _ hchild ih =>
    obtain ⟨u, v, htokens, hstart⟩ := ih
    obtain ⟨u', v', htokens', hstart'⟩ := hstep hchild
    refine ⟨u ++ u', v' ++ v, by simp [htokens, htokens'], ?_⟩
    rw [hstart', hstart, List.length_append]
    omega

/-! ## Doing without repetitions -/

/-- A lower tree can be replaced by a smaller one for the same item and the same tokens. -/
theorem exists_smaller_of_reflTransGen (h : ReflTransGen Child p q) (hp : p.tree.IsDerivation g)
    {t : Tree} (ht : t.IsDerivation g) (hroot : t.root = q.tree.root)
    (htokens : t.tokens = q.tree.tokens) (hsize : t.size < q.tree.size) :
    ∃ t' : Tree, t'.IsDerivation g ∧ t'.root = p.tree.root ∧ t'.tokens = p.tree.tokens ∧
      t'.size < p.tree.size := by
  induction h using ReflTransGen.head_induction_on with
  | refl => exact ⟨t, ht, hroot, htokens, hsize⟩
  | @head p r hchild _ ih =>
    obtain ⟨t', ht', hroot', htokens', hsize'⟩ := ih (isDerivation_of_child hchild hp)
    obtain ⟨symbol, before, after, htree, -⟩ := hchild.exists_children
    refine ⟨.node symbol (before ++ t' :: after), ?_, ?_, ?_, ?_⟩
    · rw [htree, Tree.isDerivation_node_iff] at hp
      obtain ⟨-, hmem, hbelow⟩ := hp
      have hrule : Tree.ruleAt symbol (before ++ t' :: after) =
          Tree.ruleAt symbol (before ++ r.tree :: after) := by
        simp [Tree.ruleAt, hroot']
      refine Tree.isDerivation_node_iff.mpr ⟨by simp, hrule ▸ hmem, fun child hc => ?_⟩
      rcases List.mem_append.mp hc with hc | hc
      · exact hbelow child (by simp [hc])
      · rcases List.mem_cons.mp hc with rfl | hc
        · exact ht'
        · exact hbelow child (by simp [hc])
    · rw [htree]
      rfl
    · rw [htree]
      simp [htokens']
    · rw [htree]
      simp
      omega

theorem eq_node_of_attempt? {attempt : Unger.Attempt} (h : p.attempt? = some attempt) :
    ∃ children, p.tree = .node attempt.rule.lhs children ∧
      Tree.ruleAt attempt.rule.lhs children = attempt.rule ∧ p.span = attempt.span := by
  obtain ⟨start, t⟩ := p
  cases t with
  | leaf | epsilon => simp [attempt?] at h
  | node symbol children =>
    obtain rfl := Option.some.inj h
    exact ⟨children, rfl, rfl, rfl⟩

/-- Two nodes that make the same attempt, one below the other, are interchangeable. -/
theorem exists_smaller_of_repeats (hp : p.tree.IsDerivation g) (h : p.Repeats) :
    ∃ t : Tree, t.IsDerivation g ∧ t.root = p.tree.root ∧ t.tokens = p.tree.tokens ∧
      t.size < p.tree.size := by
  obtain ⟨upper, lower, hupper, hlower, attempt, hattempt, hattempt'⟩ := h
  obtain ⟨children, htree, -, hspan⟩ := eq_node_of_attempt? hattempt
  obtain ⟨children', htree', -, hspan'⟩ := eq_node_of_attempt? hattempt'
  obtain ⟨u, v, htokens, -⟩ := exists_tokens_of_transGen hlower
  have hsame : lower.tree.tokens.length = upper.tree.tokens.length := by
    obtain ⟨hstart, hstop⟩ := Span.mk.inj (hspan.trans hspan'.symm)
    omega
  have hnil : u = [] ∧ v = [] := by
    rw [htokens] at hsame
    simp only [List.length_append] at hsame
    exact ⟨List.eq_nil_of_length_eq_zero (by omega), List.eq_nil_of_length_eq_zero (by omega)⟩
  have hupper' := isDerivation_of_reflTransGen hupper hp
  refine exists_smaller_of_reflTransGen hupper hp
    (isDerivation_of_reflTransGen hlower.to_reflTransGen hupper') ?_ ?_ (size_lt_of_transGen hlower)
  · rw [htree, htree']
    rfl
  · rw [htokens, hnil.1, hnil.2]
    simp

/-! ## Avoiding attempts -/

/-- No node makes one of the given attempts, or one that a node above it makes. -/
structure Avoids (active : List Unger.Attempt) (p : Placed) : Prop where
  notMem : ∀ q, ReflTransGen Child p q → ∀ attempt, q.attempt? = some attempt → attempt ∉ active
  notRepeats : ¬p.Repeats

variable {active : List Unger.Attempt}

theorem avoids_nil : Avoids [] p ↔ ¬p.Repeats :=
  ⟨Avoids.notRepeats, fun h => ⟨by simp, h⟩⟩

/-- Leaves make no attempts. -/
theorem avoids_of_below_eq_nil (hbelow : p.below = []) (hattempt : p.attempt? = none) :
    Avoids active p := by
  have hno (q : Placed) : ¬Child p q := by simp [Child, hbelow]
  have hself {q : Placed} (h : ReflTransGen Child p q) : p = q := by
    rcases h.cases_head with rfl | ⟨r, hr, -⟩
    · rfl
    · exact absurd hr (hno r)
  refine ⟨fun q hq attempt h => ?_, ?_⟩
  · simp [← hself hq, hattempt] at h
  · intro h'
    obtain ⟨upper, lower, hupper, hlower, -⟩ := h'
    obtain rfl := hself hupper
    obtain ⟨r, hr, -⟩ := TransGen.head'_iff.mp hlower
    exact hno r hr

/-- Below a node its own attempt has to be avoided as well. -/
theorem avoids_iff {attempt : Unger.Attempt} (hattempt : p.attempt? = some attempt) :
    Avoids active p ↔ attempt ∉ active ∧ ∀ q ∈ p.below, Avoids (attempt :: active) q := by
  constructor
  · intro h
    obtain ⟨hnotMem, hnotRepeats⟩ := h
    refine ⟨hnotMem p .refl attempt hattempt, fun q hq => ⟨fun r hr other hother hmem => ?_, ?_⟩⟩
    · rcases List.mem_cons.mp hmem with rfl | hmem
      · exact hnotRepeats ⟨p, r, .refl, .head' hq hr, other, hattempt, hother⟩
      · exact hnotMem r (.head hq hr) other hother hmem
    · intro h'
      obtain ⟨upper, lower, hupper, hlower, h⟩ := h'
      exact hnotRepeats ⟨upper, lower, .head hq hupper, hlower, h⟩
  · intro h
    obtain ⟨hself, hbelow⟩ := h
    refine ⟨fun r hr other hother => ?_, ?_⟩
    · rcases hr.cases_head with rfl | ⟨q, hq, hr⟩
      · obtain rfl := Option.some.inj (hattempt.symm.trans hother)
        exact hself
      · exact fun hmem => (hbelow q hq).notMem r hr other hother (List.mem_cons_of_mem _ hmem)
    · intro h'
      obtain ⟨upper, lower, hupper, hlower, other, hother, hother'⟩ := h'
      rcases hupper.cases_head with rfl | ⟨q, hq, hupper⟩
      · obtain rfl := Option.some.inj (hattempt.symm.trans hother)
        obtain ⟨q, hq, hlower⟩ := TransGen.head'_iff.mp hlower
        exact (hbelow q hq).notMem lower hlower attempt hother' List.mem_cons_self
      · exact (hbelow q hq).notRepeats ⟨upper, lower, hupper, hlower, other, hother, hother'⟩

end Placed

namespace Tree

/-- A node of the tree applies the same rule to the same span as some node above it. -/
def Repeats (t : Tree) : Prop :=
  Placed.Repeats ⟨0, t⟩

theorem exists_not_repeats {g : Grammar} {t : Tree} (h : t.IsDerivation g) :
    ∃ t' : Tree, t'.IsDerivation g ∧ t'.root = t.root ∧ t'.tokens = t.tokens ∧ ¬t'.Repeats := by
  induction hsize : t.size using Nat.strong_induction_on generalizing t with
  | _ n ih =>
    by_cases hrepeats : t.Repeats
    · obtain ⟨s, hs, hroot, htokens, hlt⟩ := Placed.exists_smaller_of_repeats h hrepeats
      obtain ⟨t', ht', hroot', htokens', hnot⟩ := ih s.size (hsize ▸ hlt) hs rfl
      exact ⟨t', ht', hroot'.trans hroot, htokens'.trans htokens, hnot⟩
    · exact ⟨t, h, rfl, rfl, hrepeats⟩

end Tree

end ContextFree
