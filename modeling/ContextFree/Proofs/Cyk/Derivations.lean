import ContextFree.Proofs.Cyk.Chart
import ContextFree.Proofs.Tree.Derivation

/-!
# The trees that are found from a chart

Remembering what has been worked out changes nothing: as long as the memo holds what would be worked
out anew (`Memo.Sound`), so does the result (`Cyk.yields_derive`). Worked out anew, the trees for a
goal are just the derivation trees with its symbol for its part of the input, each of them once. A
tree determines the rule at its root and the length of its first half.
-/

namespace ContextFree

namespace Cyk

/-- The goal for the first half through a pair. -/
def Goal.first (goal : Goal) (split : PairRule × Nat) : Goal :=
  ⟨split.1.left, goal.start, split.2⟩

/-- The goal for what the first half leaves. -/
def Goal.second (goal : Goal) (split : PairRule × Nat) : Goal :=
  ⟨split.1.right, goal.start + split.2, goal.length - split.2⟩

/-- The derivation trees for a goal of at most `bound` tokens, worked out without a memo. -/
def trees (pairs : List PairRule) (chart : Chart) (input : List Token) :
    (bound : Nat) → Goal → List Tree
  | 0, _ => []
  | bound + 1, goal =>
    if !chart.contains goal.symbol goal.start goal.length then []
    else if goal.length = 1 then
      input[goal.start - 1]?.toList.map fun token => .node goal.symbol [.leaf token]
    else (splits pairs goal).flatMap fun split =>
      (trees pairs chart input bound (goal.first split)).flatMap fun left =>
        (trees pairs chart input bound (goal.second split)).map fun right =>
          .node goal.symbol [left, right]

variable {pairs : List PairRule} {chart : Chart} {input : List Token} {goal : Goal}
  {bound bound' : Nat} {pair : PairRule} {length : Nat}

theorem mem_splits : (pair, length) ∈ splits pairs goal ↔
    pair ∈ pairs ∧ pair.lhs = goal.symbol ∧ 1 ≤ length ∧ length < goal.length := by
  simp only [splits, List.mem_flatMap, List.mem_filter, List.mem_map, List.mem_range'_1,
    Prod.mk.injEq, decide_eq_true_eq]
  constructor
  · intro h
    obtain ⟨_, ⟨hpair, hlhs⟩, _, hlength, rfl, rfl⟩ := h
    exact ⟨hpair, hlhs, by omega⟩
  · intro h
    obtain ⟨hpair, hlhs, hlength⟩ := h
    exact ⟨pair, ⟨hpair, hlhs⟩, length, by omega, rfl, rfl⟩

theorem length_lt_of_mem_splits {split : PairRule × Nat} (h : split ∈ splits pairs goal) :
    (goal.first split).length < goal.length ∧ (goal.second split).length < goal.length := by
  obtain ⟨-, -, hpos, hlt⟩ := mem_splits.mp h
  simp only [Goal.first, Goal.second]
  omega

theorem trees_of_length_eq_zero (h : goal.length = 0) :
    trees pairs chart input bound goal = [] := by
  cases bound with
  | zero => rfl
  | succ bound =>
    rw [trees, if_pos]
    simp [Chart.contains, Chart.cellAt?_eq, h]

/-- It does not matter how many tokens more are allowed. -/
theorem trees_eq_of_le (h : goal.length ≤ bound) (h' : goal.length ≤ bound') :
    trees pairs chart input bound goal = trees pairs chart input bound' goal := by
  induction bound generalizing bound' goal with
  | zero => rw [trees_of_length_eq_zero (by omega), trees_of_length_eq_zero (by omega)]
  | succ bound ih =>
    cases bound' with
    | zero => rw [trees_of_length_eq_zero (by omega), trees_of_length_eq_zero (by omega)]
    | succ bound' =>
      rw [trees, trees]
      congr 2
      refine List.flatMap_congr fun split hsplit => ?_
      obtain ⟨hfirst, hsecond⟩ := length_lt_of_mem_splits hsplit
      rw [ih (by omega) (show (goal.first split).length ≤ bound' by omega),
        ih (by omega) (show (goal.second split).length ≤ bound' by omega)]

/-! ## Remembering -/

/-- What the memo holds is what would be worked out anew. -/
def Memo.Sound (pairs : List PairRule) (chart : Chart) (input : List Token) (memo : Memo) : Prop :=
  ∀ (goal : Goal) (ts : List Tree), memo.trees[goal]? = some ts →
    ts = Cyk.trees pairs chart input goal.length goal

theorem sound_empty : Memo.empty.Sound pairs chart input := by
  intro goal ts h
  simp [Memo.empty] at h

theorem Memo.Sound.insert {memo : Memo} (h : memo.Sound pairs chart input)
    (hbound : goal.length ≤ bound) :
    (memo.insert goal (Cyk.trees pairs chart input bound goal)).Sound pairs chart input := by
  intro other ts hts
  simp only [Memo.insert, Std.HashMap.getElem?_insert] at hts
  split at hts
  · next heq =>
    obtain rfl := eq_of_beq heq
    rw [← Option.some.inj hts]
    exact trees_eq_of_le hbound le_rfl
  · exact h other ts hts

/-- With a sound memo the search returns the value and leaves a sound memo. -/
def Yields {α : Type} (pairs : List PairRule) (chart : Chart) (input : List Token)
    (search : StateM Memo α) (a : α) : Prop :=
  ∀ memo : Memo, memo.Sound pairs chart input → ∃ memo' : Memo,
    search.run memo = (a, memo') ∧ memo'.Sound pairs chart input

section

variable {α β : Type} {search : StateM Memo α} {a : α}

theorem Yields.pure : Yields pairs chart input (Pure.pure a) a :=
  fun memo h => ⟨memo, rfl, h⟩

theorem Yields.bind {next : α → StateM Memo β} {b : β} (h : Yields pairs chart input search a)
    (hnext : Yields pairs chart input (next a) b) :
    Yields pairs chart input (search >>= next) b := by
  intro memo hsound
  obtain ⟨memo', hrun, hsound'⟩ := h memo hsound
  obtain ⟨memo'', hrun', hsound''⟩ := hnext memo' hsound'
  exact ⟨memo'', by rw [StateT.run_bind, hrun]; exact hrun', hsound''⟩

theorem Yields.flatMapM {l : List α} {search : α → StateM Memo (List β)} {f : α → List β}
    (h : ∀ a ∈ l, Yields pairs chart input (search a) (f a)) :
    Yields pairs chart input (l.flatMapM search) (l.flatMap f) := by
  induction l with
  | nil => exact .pure
  | cons a l ih =>
    obtain ⟨ha, hl⟩ := List.forall_mem_cons.mp h
    rw [List.flatMapM_cons, List.flatMap_cons]
    exact ha.bind ((ih hl).bind .pure)

end

/-- What is done for a goal that is not remembered. -/
def workOut (pairs : List PairRule) (chart : Chart) (input : List Token) (bound : Nat)
    (goal : Goal) : StateM Memo (List Tree) :=
  if !chart.contains goal.symbol goal.start goal.length then pure []
  else if goal.length = 1 then
    pure (input[goal.start - 1]?.toList.map fun token => .node goal.symbol [.leaf token])
  else
    (splits pairs goal).flatMapM fun split => do
      let lefts ← derive pairs chart input bound (goal.first split)
      if lefts.isEmpty then pure []
      else
        let rights ← derive pairs chart input bound (goal.second split)
        pure (lefts.flatMap fun left => rights.map fun right => .node goal.symbol [left, right])

theorem run_derive_of_some {memo : Memo} {ts : List Tree} (h : memo.trees[goal]? = some ts) :
    (derive pairs chart input (bound + 1) goal).run memo = (ts, memo) := by
  simp only [derive, StateT.run_bind, StateT.run_get, pure_bind, h]
  rfl

theorem run_derive_of_none {memo : Memo} (h : memo.trees[goal]? = none) :
    (derive pairs chart input (bound + 1) goal).run memo =
      (((workOut pairs chart input bound goal).run memo).1,
        ((workOut pairs chart input bound goal).run memo).2.insert goal
          ((workOut pairs chart input bound goal).run memo).1) := by
  simp only [derive, workOut, StateT.run_bind, StateT.run_get, pure_bind, h]
  split
  · rfl
  · split <;> rfl

theorem yields_workOut (hbound : goal.length ≤ bound + 1) (ih : ∀ goal : Goal, goal.length ≤ bound →
    Yields pairs chart input (derive pairs chart input bound goal)
      (trees pairs chart input bound goal)) :
    Yields pairs chart input (workOut pairs chart input bound goal)
      (trees pairs chart input (bound + 1) goal) := by
  rw [workOut, trees]
  split
  · exact .pure
  split
  · exact .pure
  refine .flatMapM fun split hsplit => ?_
  obtain ⟨hfirst, hsecond⟩ := length_lt_of_mem_splits hsplit
  refine (ih (goal.first split) (by omega)).bind ?_
  split
  · next hempty =>
    rw [List.isEmpty_iff.mp hempty]
    exact .pure
  · exact (ih (goal.second split) (by omega)).bind .pure

theorem yields_derive (hbound : goal.length ≤ bound) :
    Yields pairs chart input (derive pairs chart input bound goal)
      (trees pairs chart input bound goal) := by
  induction bound generalizing goal with
  | zero => exact .pure
  | succ bound ih =>
    intro memo hsound
    cases hget : memo.trees[goal]? with
    | some ts =>
      rw [run_derive_of_some hget, trees_eq_of_le hbound le_rfl, ← hsound goal ts hget]
      exact ⟨memo, rfl, hsound⟩
    | none =>
      obtain ⟨memo', hrun, hsound'⟩ := yields_workOut hbound (fun _ => ih) memo hsound
      rw [run_derive_of_none hget, hrun]
      exact ⟨_, rfl, hsound'.insert hbound⟩

/-! ## Trees of normal grammars -/

variable {g : Grammar} {symbol : Nonterminal} {t : Tree}

/-- What is below the root of a tree of a normal grammar. -/
theorem exists_of_isNormal (h : g.IsNormal) (ht : t.IsDerivation g)
    (hroot : t.root = .nonterminal symbol) :
    (⟨symbol, .empty⟩ ∈ g.rules ∧ t = .node symbol [.epsilon]) ∨
      (∃ token, ⟨symbol, .terminal token⟩ ∈ g.rules ∧ t = .node symbol [.leaf token]) ∨
        ∃ left right, ⟨symbol, .seq [.nonterminal left, .nonterminal right]⟩ ∈ g.rules ∧
          ∃ l r : Tree, l.IsDerivation g ∧ l.root = .nonterminal left ∧ l.tokens ≠ [] ∧
            r.IsDerivation g ∧ r.root = .nonterminal right ∧ r.tokens ≠ [] ∧
              t = .node symbol [l, r] := by
  obtain ⟨children, rfl⟩ := ht.exists_children hroot
  obtain ⟨hne, hr, hbelow⟩ := Tree.isDerivation_node_iff.mp ht
  have hitems := Tree.items_ruleAt symbol hne
  have hrule {e : Expr} (hrhs : (Tree.ruleAt symbol children).rhs = e) : ⟨symbol, e⟩ ∈ g.rules :=
    hrhs ▸ hr
  rcases h.rhs_cases hr with hrhs | ⟨token, hrhs⟩ | ⟨left, right, hrhs⟩
  · rw [hrhs] at hitems
    obtain ⟨child, rfl, hchild⟩ := List.map_eq_singleton_iff.mp hitems.symm
    obtain rfl := Tree.root_eq_empty_iff.mp hchild
    exact .inl ⟨hrule hrhs, rfl⟩
  · rw [hrhs] at hitems
    obtain ⟨child, rfl, hchild⟩ := List.map_eq_singleton_iff.mp hitems.symm
    obtain rfl := Tree.root_eq_terminal_iff.mp hchild
    exact .inr (.inl ⟨token, hrule hrhs, rfl⟩)
  · rw [hrhs] at hitems
    obtain ⟨l, rest, rfl, hlroot, hrest⟩ := List.map_eq_cons_iff.mp hitems.symm
    obtain ⟨r, rfl, hrroot⟩ := List.map_eq_singleton_iff.mp hrest
    have hl := hbelow l (by simp)
    have hr' := hbelow r (by simp)
    have hne (s : Nonterminal) (hs : s = left ∨ s = right) {w : List Token}
        (hw : w ∈ g.languages s) : w ≠ [] :=
      Grammar.ne_nil_of_mem_languages h (hrule hrhs) (by simpa [Expr.mem_nonterminals] using hs) hw
    exact .inr (.inr ⟨left, right, hrule hrhs, l, r, hl, hlroot,
      hne left (.inl rfl) (hl.mem_languages hlroot), hr', hrroot,
      hne right (.inr rfl) (hr'.mem_languages hrroot), rfl⟩)

/-- The nodes with a tree of each list below. -/
theorem mem_nodes {ls rs : List Tree} :
    t ∈ (ls.flatMap fun l => rs.map fun r => Tree.node symbol [l, r]) ↔
      ∃ l ∈ ls, ∃ r ∈ rs, t = .node symbol [l, r] := by
  simp [eq_comm]

theorem nodup_nodes {ls rs : List Tree} (hls : ls.Nodup) (hrs : rs.Nodup) :
    (ls.flatMap fun l => rs.map fun r => Tree.node symbol [l, r]).Nodup := by
  refine nodup_flatMap_of_injective hls (fun l _ => ?_) ?_
  · exact hrs.map fun _ _ heq => by simpa using heq
  · intro l _ l' _ t ht ht'
    obtain ⟨_, -, rfl⟩ := List.mem_map.mp ht
    obtain ⟨_, -, heq⟩ := List.mem_map.mp ht'
    exact (List.cons.inj (Tree.node.inj heq).2).1.symm

theorem isDerivation_leaf {token : Token} (hr : ⟨symbol, .terminal token⟩ ∈ g.rules) :
    (Tree.node symbol [.leaf token]).IsDerivation g :=
  .node hr rfl (by simp [Tree.IsDerivation.leaf])

theorem isDerivation_pair {left right : Nonterminal} {l r : Tree}
    (hr : ⟨symbol, .seq [.nonterminal left, .nonterminal right]⟩ ∈ g.rules)
    (hl : l.IsDerivation g) (hlroot : l.root = .nonterminal left)
    (hr' : r.IsDerivation g) (hrroot : r.root = .nonterminal right) :
    (Tree.node symbol [l, r]).IsDerivation g :=
  .node hr (by simp [Expr.items, hlroot, hrroot]) (by simp [hl, hr'])

/-! ## All trees for a goal -/

/-- The part of the input that a goal is about. -/
def Goal.span (goal : Goal) : Span :=
  ⟨goal.start - 1, goal.start - 1 + goal.length⟩

/-- The goal is about a nonempty part of the input. -/
structure Goal.Within (input : List Token) (goal : Goal) : Prop where
  start_pos : 0 < goal.start
  length_pos : 0 < goal.length
  le : goal.start + goal.length ≤ input.length + 1

variable {split : PairRule × Nat}

theorem Goal.Within.span (hgoal : goal.Within input) : goal.span.Within input := by
  obtain ⟨hstart, -, hle⟩ := hgoal
  exact ⟨Nat.le_add_right _ _, by simp only [Goal.span]; omega⟩

theorem Goal.Within.length_slice (hgoal : goal.Within input) :
    (goal.span.slice input).length = goal.length := by
  rw [hgoal.span.length_slice]
  simp [Goal.span]

theorem Goal.Within.halves (hgoal : goal.Within input) (h : split ∈ splits pairs goal) :
    (goal.first split).Within input ∧ (goal.second split).Within input := by
  obtain ⟨hstart, -, hle⟩ := hgoal
  obtain ⟨-, -, hpos, hlt⟩ := mem_splits.mp h
  refine ⟨⟨hstart, hpos, ?_⟩, ⟨?_, ?_, ?_⟩⟩ <;> simp only [Goal.first, Goal.second] <;> omega

theorem slice_halves (hgoal : goal.Within input) (h : split ∈ splits pairs goal) :
    (goal.first split).span.slice input ++ (goal.second split).span.slice input =
      goal.span.slice input := by
  obtain ⟨hstart, -, hle⟩ := hgoal
  obtain ⟨-, -, hpos, hlt⟩ := mem_splits.mp h
  have hmiddle : goal.start + split.2 - 1 = goal.start - 1 + split.2 := by omega
  have hstop : goal.start - 1 + split.2 + (goal.length - split.2) =
      goal.start - 1 + goal.length := by omega
  simp only [Goal.span, Goal.first, Goal.second, hmiddle, hstop]
  exact Span.slice_append input (Nat.le_add_right _ _) (by omega)

theorem contains_iff_of_within (h : g.IsNormal) (hgoal : goal.Within input) :
    (Chart.ofTokens g input).contains goal.symbol goal.start goal.length ↔
      goal.span.slice input ∈ g.languages goal.symbol := by
  rw [Chart.contains_iff h]
  exact ⟨fun hall => hall.2.2.2, fun hmem => ⟨hgoal.start_pos, hgoal.length_pos, hgoal.le, hmem⟩⟩

/-- The tree has the symbol of the goal at its root and the tokens of its part of the input. -/
structure Meets (g : Grammar) (input : List Token) (goal : Goal) (t : Tree) : Prop where
  isDerivation : t.IsDerivation g
  root : t.root = .nonterminal goal.symbol
  tokens : t.tokens = goal.span.slice input

theorem meets_iff_of_length_eq_one (h : g.IsNormal) (hgoal : goal.Within input)
    (hone : goal.length = 1) : Meets g input goal t ↔
      goal.span.slice input ∈ g.languages goal.symbol ∧
        ∃ token, input[goal.start - 1]? = some token ∧ t = .node goal.symbol [.leaf token] := by
  have hslice (token : Token) : goal.span.slice input = [token] ↔
      input[goal.start - 1]? = some token := by
    rw [hgoal.span.slice_eq_singleton_iff]
    simp [Goal.span, hone]
  constructor
  · intro h'
    obtain ⟨ht, hroot, htokens⟩ := h'
    refine ⟨htokens ▸ ht.mem_languages hroot, ?_⟩
    have hlength := hgoal.length_slice
    rw [← htokens, hone] at hlength
    rcases exists_of_isNormal h ht hroot with ⟨-, rfl⟩ | ⟨token, -, rfl⟩ |
      ⟨left, right, -, l, r, -, -, hlne, -, -, hrne, rfl⟩
    · simp at hlength
    · exact ⟨token, (hslice token).mp htokens.symm, rfl⟩
    · have := List.length_pos_of_ne_nil hlne
      have := List.length_pos_of_ne_nil hrne
      simp at hlength
      omega
  · intro h'
    obtain ⟨hmem, token, htoken, rfl⟩ := h'
    have heq := (hslice token).mpr htoken
    rw [heq] at hmem
    exact ⟨isDerivation_leaf ((Grammar.singleton_mem_languages_iff h).mp hmem), rfl, heq.symm⟩

theorem meets_iff_of_length_ne_one (h : g.IsNormal) (hgoal : goal.Within input)
    (hone : goal.length ≠ 1) : Meets g input goal t ↔
      ∃ split ∈ splits g.pairRules goal, ∃ l r, Meets g input (goal.first split) l ∧
        Meets g input (goal.second split) r ∧ t = .node goal.symbol [l, r] := by
  constructor
  · intro h'
    obtain ⟨ht, hroot, htokens⟩ := h'
    have hlength := hgoal.length_slice
    rw [← htokens] at hlength
    rcases exists_of_isNormal h ht hroot with ⟨-, rfl⟩ | ⟨token, -, rfl⟩ |
      ⟨left, right, hr, l, r, hl, hlroot, hlne, hr', hrroot, hrne, rfl⟩
    · have := hgoal.length_pos
      simp at hlength
      omega
    · simp at hlength
      omega
    · have hlpos := List.length_pos_of_ne_nil hlne
      have hrpos := List.length_pos_of_ne_nil hrne
      have hsum : l.tokens.length + r.tokens.length = goal.length := by simpa using hlength
      have hsplit : (⟨goal.symbol, left, right⟩, l.tokens.length) ∈ splits g.pairRules goal :=
        mem_splits.mpr ⟨Chart.mem_pairRules.mpr hr, rfl, hlpos, by omega⟩
      have hhalves := slice_halves hgoal hsplit
      have hnode : (Tree.node goal.symbol [l, r]).tokens = l.tokens ++ r.tokens := by simp
      rw [← htokens, hnode] at hhalves
      obtain ⟨hfirst, hsecond⟩ :=
        List.append_inj hhalves (by rw [(hgoal.halves hsplit).1.length_slice]; rfl)
      exact ⟨_, hsplit, l, r, ⟨hl, hlroot, hfirst.symm⟩, ⟨hr', hrroot, hsecond.symm⟩, rfl⟩
  · intro h'
    obtain ⟨⟨pair, first⟩, hsplit, l, r, hl, hr, rfl⟩ := h'
    obtain ⟨hpair, hlhs, -, -⟩ := mem_splits.mp hsplit
    have hrule := Chart.mem_pairRules.mp hpair
    rw [hlhs] at hrule
    refine ⟨isDerivation_pair hrule hl.isDerivation hl.root hr.isDerivation hr.root, rfl, ?_⟩
    rw [← slice_halves hgoal hsplit, ← hl.tokens, ← hr.tokens]
    simp

theorem mem_trees (h : g.IsNormal) (hgoal : goal.Within input) (hbound : goal.length ≤ bound) :
    t ∈ trees g.pairRules (Chart.ofTokens g input) input bound goal ↔ Meets g input goal t := by
  induction bound generalizing goal t with
  | zero => exact absurd hgoal.length_pos (by omega)
  | succ bound ih =>
    rw [trees]
    split
    · next hnot =>
      have hnot : ¬(Chart.ofTokens g input).contains goal.symbol goal.start goal.length := by
        simpa using hnot
      rw [contains_iff_of_within h hgoal] at hnot
      simp only [List.not_mem_nil, false_iff]
      intro h'
      obtain ⟨ht, hroot, htokens⟩ := h'
      exact hnot (htokens ▸ ht.mem_languages hroot)
    next hcontains =>
    have hmem : goal.span.slice input ∈ g.languages goal.symbol := by
      rw [← contains_iff_of_within h hgoal]
      simpa using hcontains
    split
    · next hone =>
      rw [meets_iff_of_length_eq_one h hgoal hone]
      simp only [List.mem_map, Option.mem_toList, hmem, true_and, eq_comm]
    · next hone =>
      rw [meets_iff_of_length_ne_one h hgoal hone]
      rw [List.mem_flatMap]
      refine exists_congr fun split => and_congr_right fun hsplit => ?_
      obtain ⟨hfirst, hsecond⟩ := length_lt_of_mem_splits hsplit
      obtain ⟨hwithin, hwithin'⟩ := hgoal.halves hsplit
      rw [mem_nodes]
      constructor
      · intro h'
        obtain ⟨l, hl, r, hr, rfl⟩ := h'
        exact ⟨l, r, (ih hwithin (by omega)).mp hl, (ih hwithin' (by omega)).mp hr, rfl⟩
      · intro h'
        obtain ⟨l, r, hl, hr, rfl⟩ := h'
        exact ⟨l, (ih hwithin (by omega)).mpr hl, r, (ih hwithin' (by omega)).mpr hr, rfl⟩

/-! ## No tree twice -/

theorem nodup_pairRules : g.pairRules.Nodup := by
  refine List.Nodup.filterMap (fun rule rule' pair hpair hpair' => ?_) g.nodup
  rw [Rule.pair?_eq_some_iff.mp hpair, Rule.pair?_eq_some_iff.mp hpair']

theorem nodup_splits (hnodup : pairs.Nodup) : (splits pairs goal).Nodup := by
  refine nodup_flatMap_of_injective (hnodup.filter _) (fun pair _ => ?_) ?_
  · exact (List.nodup_range' 1).map fun _ _ heq => (Prod.mk.inj heq).2
  · intro pair _ pair' _ split hsplit hsplit'
    obtain ⟨_, -, rfl⟩ := List.mem_map.mp hsplit
    obtain ⟨_, -, heq⟩ := List.mem_map.mp hsplit'
    exact (Prod.mk.inj heq).1.symm

/-- A tree shows through which pair it has been found, and where the first half ends. -/
theorem split_eq_of_meets {split split' : PairRule × Nat} {l r : Tree}
    (hgoal : goal.Within input) (hsplit : split ∈ splits pairs goal)
    (hsplit' : split' ∈ splits pairs goal) (hl : Meets g input (goal.first split) l)
    (hl' : Meets g input (goal.first split') l) (hr : Meets g input (goal.second split) r)
    (hr' : Meets g input (goal.second split') r) : split = split' := by
  obtain ⟨⟨lhs, left, right⟩, first⟩ := split
  obtain ⟨⟨lhs', left', right'⟩, first'⟩ := split'
  obtain ⟨-, rfl, -, -⟩ := mem_splits.mp hsplit
  obtain ⟨-, hlhs, -, -⟩ := mem_splits.mp hsplit'
  have hfirst := (hgoal.halves hsplit).1.length_slice
  have hfirst' := (hgoal.halves hsplit').1.length_slice
  rw [← hl.tokens] at hfirst
  rw [← hl'.tokens] at hfirst'
  have hleft := hl.root.symm.trans hl'.root
  have hright := hr.root.symm.trans hr'.root
  simp only [Goal.first, Goal.second, Expr.nonterminal.injEq] at *
  simp only [Prod.mk.injEq, PairRule.mk.injEq]
  exact ⟨⟨hlhs.symm, hleft, hright⟩, hfirst.symm.trans hfirst'⟩

theorem nodup_trees (h : g.IsNormal) (hgoal : goal.Within input) (hbound : goal.length ≤ bound) :
    (trees g.pairRules (Chart.ofTokens g input) input bound goal).Nodup := by
  induction bound generalizing goal with
  | zero => exact List.nodup_nil
  | succ bound ih =>
    rw [trees]
    split
    · exact List.nodup_nil
    split
    · cases input[goal.start - 1]? with
      | none => exact List.nodup_nil
      | some token => exact List.nodup_singleton _
    have hhalf {split : PairRule × Nat} (hsplit : split ∈ splits g.pairRules goal) :
        (goal.first split).length ≤ bound ∧ (goal.second split).length ≤ bound := by
      obtain ⟨hfirst, hsecond⟩ := length_lt_of_mem_splits hsplit
      omega
    refine nodup_flatMap_of_injective (nodup_splits nodup_pairRules) (fun split hsplit => ?_) ?_
    · obtain ⟨hwithin, hwithin'⟩ := hgoal.halves hsplit
      exact nodup_nodes (ih hwithin (hhalf hsplit).1) (ih hwithin' (hhalf hsplit).2)
    · intro split hsplit split' hsplit' t ht ht'
      obtain ⟨l, hl, r, hr, rfl⟩ := mem_nodes.mp ht
      obtain ⟨l', hl', r', hr', heq⟩ := mem_nodes.mp ht'
      obtain ⟨rfl, rfl⟩ : l = l' ∧ r = r' := by simpa using heq
      obtain ⟨hwithin, hwithin'⟩ := hgoal.halves hsplit
      obtain ⟨hwithin₁, hwithin₁'⟩ := hgoal.halves hsplit'
      exact split_eq_of_meets hgoal hsplit hsplit'
        ((mem_trees h hwithin (hhalf hsplit).1).mp hl)
        ((mem_trees h hwithin₁ (hhalf hsplit').1).mp hl')
        ((mem_trees h hwithin' (hhalf hsplit).2).mp hr)
        ((mem_trees h hwithin₁' (hhalf hsplit').2).mp hr')

/-! ## The whole input -/

/-- The derivation trees of the tokens, found without a memo. -/
def plainParse (g : Grammar) (input : List Token) : List Tree :=
  g.start?.elim [] fun start =>
    if input.isEmpty then (if acceptsEmpty g then [.node start [.epsilon]] else [])
    else trees g.pairRules (Chart.ofTokens g input) input input.length ⟨start, 1, input.length⟩

theorem parse_eq_plainParse : parse g input = plainParse g input := by
  rw [parse, plainParse]
  cases g.start? with
  | none => rfl
  | some start =>
    simp only [Option.elim_some, search]
    split
    · rfl
    · have hyields : Yields g.pairRules (Chart.ofTokens g input) input
          (derive g.pairRules (Chart.ofTokens g input) input input.length
            ⟨start, 1, input.length⟩) _ := yields_derive le_rfl
      obtain ⟨_, hrun, -⟩ := hyields .empty sound_empty
      rw [hrun]

theorem isParse_nil_iff (h : g.IsNormal) {start : Nonterminal} (hstart : g.start? = some start) :
    t.IsParse g [] ↔ acceptsEmpty g ∧ t = .node start [.epsilon] := by
  rw [acceptsEmpty_iff h hstart]
  constructor
  · intro h'
    obtain ⟨ht, ⟨start', hstart', hroot⟩, htokens⟩ := h'
    obtain rfl := Option.some.inj (hstart.symm.trans hstart')
    refine ⟨htokens ▸ ht.mem_languages hroot, ?_⟩
    rcases exists_of_isNormal h ht hroot with ⟨-, rfl⟩ | ⟨token, -, rfl⟩ |
      ⟨left, right, -, l, r, -, -, hlne, -, -, -, rfl⟩
    · rfl
    · simp at htokens
    · simp [hlne] at htokens
  · intro h'
    obtain ⟨hnil, rfl⟩ := h'
    refine ⟨.node (Grammar.empty_rule_of_nil_mem h hnil) rfl ?_, ⟨start, hstart, rfl⟩, by simp⟩
    simp [Tree.IsDerivation.epsilon]

theorem isParse_iff_meets {start : Nonterminal} (hstart : g.start? = some start) :
    t.IsParse g input ↔ Meets g input ⟨start, 1, input.length⟩ t := by
  have hslice : (⟨start, 1, input.length⟩ : Goal).span.slice input = input := by
    simp [Goal.span, Span.slice_whole]
  constructor
  · intro h
    obtain ⟨ht, ⟨start', hstart', hroot⟩, htokens⟩ := h
    obtain rfl := Option.some.inj (hstart.symm.trans hstart')
    exact ⟨ht, hroot, htokens.trans hslice.symm⟩
  · intro h
    obtain ⟨ht, hroot, htokens⟩ := h
    exact ⟨ht, ⟨start, hstart, hroot⟩, htokens.trans hslice⟩

theorem within_whole (hne : input ≠ []) (start : Nonterminal) :
    (⟨start, 1, input.length⟩ : Goal).Within input :=
  ⟨Nat.one_pos, List.length_pos_of_ne_nil hne, by simp only; omega⟩

theorem mem_parse (h : g.IsNormal) : t ∈ parse g input ↔ t.IsParse g input := by
  rw [parse_eq_plainParse, plainParse]
  cases hstart : g.start? with
  | none =>
    simp only [Option.elim_none, List.not_mem_nil, false_iff]
    intro h'
    obtain ⟨-, ⟨start, hstart', -⟩, -⟩ := h'
    simp [hstart] at hstart'
  | some start =>
    rw [Option.elim_some]
    split
    · next hempty =>
      obtain rfl := List.isEmpty_iff.mp hempty
      rw [isParse_nil_iff h hstart]
      split <;> simp_all
    · next hne =>
      rw [isParse_iff_meets hstart, mem_trees h (within_whole (by simpa using hne) start) le_rfl]

theorem nodup_parse (h : g.IsNormal) : (parse g input).Nodup := by
  rw [parse_eq_plainParse, plainParse]
  cases g.start? with
  | none => exact List.nodup_nil
  | some start =>
    rw [Option.elim_some]
    split
    · split
      · exact List.nodup_singleton _
      · exact List.nodup_nil
    · next hne => exact nodup_trees h (within_whole (by simpa using hne) start) le_rfl

end Cyk

namespace Grammar

variable {g : Grammar} {w : List Token}

theorem cykTrees_ne_nil_iff : g.cykTrees .unbounded w ≠ [] ↔ g.Generates w := by
  have hnormal := g.isNormal_toCnf .unbounded
  rw [← g.preserves_toCnf.generates_iff, ← Tree.exists_isParse_iff hnormal.isChoiceFree,
    cykTrees]
  constructor
  · intro hne
    obtain ⟨t, ht⟩ := List.exists_mem_of_ne_nil _ hne
    exact ⟨t, (Cyk.mem_parse hnormal).mp ht⟩
  · intro h
    obtain ⟨t, ht⟩ := h
    exact List.ne_nil_of_mem ((Cyk.mem_parse hnormal).mpr ht)

/-- Unless the program stops on the way to the normal form, the trees found from its chart are its
derivation trees, each of them once. The empty input has at most one, and remembering trees makes no
difference. -/
theorem cykTrees_spec (a : Arithmetic) (g : Grammar) (w : List Token) :
    (g.toCnf? a = none ↔ g.Overflows a) ∧
    ∀ cnf, g.toCnf? a = some cnf →
      (Cyk.parse cnf w).Nodup ∧
      (∀ t, t ∈ Cyk.parse cnf w ↔ t.IsParse cnf w) ∧
      Cyk.parse cnf [] = (cnf.start?.elim [] fun start =>
        if ⟨start, .empty⟩ ∈ cnf.rules then [.node start [.epsilon]] else []) ∧
      (∀ t ∈ Cyk.parse cnf w,
        (∃ start, cnf.start? = some start ∧ t.label = start.name) ∧ t.tokens = w) ∧
      Cyk.parse cnf w = Cyk.plainParse cnf w := by
  refine ⟨toCnf?_eq_none_iff, fun cnf hcnf => ?_⟩
  obtain ⟨-, rfl⟩ := toCnf?_eq_some_iff.mp hcnf
  have h := g.isNormal_toCnf a
  refine ⟨Cyk.nodup_parse h, fun t => Cyk.mem_parse h, ?_, fun t ht => ?_, Cyk.parse_eq_plainParse⟩
  · rw [Cyk.parse_eq_plainParse, Cyk.plainParse]
    cases hstart : (g.toCnf a).start? with
    | none => rfl
    | some start => simp [Cyk.acceptsEmpty_iff_mem hstart]
  · obtain ⟨-, ⟨start, hstart, hroot⟩, htokens⟩ := (Cyk.mem_parse h).mp ht
    refine ⟨⟨start, hstart, ?_⟩, htokens⟩
    cases t with
    | node symbol children => rw [← Expr.nonterminal.inj hroot]; rfl
    | leaf | epsilon => simp [Tree.root] at hroot

/-- With words of two bits, an alternative with two nullable items is too much. With one bit more
all of its trees are found. -/
theorem cykTrees_spec_words :
    let g : Grammar := ⟨[⟨⟨"S"⟩, .seq [.nonterminal ⟨"X"⟩, .nonterminal ⟨"X"⟩]⟩,
      ⟨⟨"X"⟩, .alt [.terminal "a", .empty]⟩], by decide, by decide⟩
    g.toCnf? (.checked 2) = none ∧
    ∃ cnf, g.toCnf? (.checked 3) = some cnf ∧ (Cyk.parse cnf ["a", "a"]).length = 1 ∧
      ∀ t ∈ Cyk.parse cnf ["a", "a"], t.tokens = ["a", "a"] := by
  intro g
  have hcnf : g.toCnf? (.checked 3) = some (g.toCnf (.checked 3)) :=
    toCnf?_eq_some_iff.mpr ⟨Fits.not_overflows (by decide), rfl⟩
  have hstop : g.toCnf? (.checked 2) = none :=
    (cykTrees_spec (.checked 2) g []).1.mpr ⟨trivial, by decide⟩
  obtain ⟨-, -, -, htrees, hplain⟩ := (cykTrees_spec (.checked 3) g ["a", "a"]).2 _ hcnf
  refine ⟨hstop, _, hcnf, ?_, fun t ht => (htrees t ht).2⟩
  rw [hplain]
  decide +kernel

end Grammar

end ContextFree
