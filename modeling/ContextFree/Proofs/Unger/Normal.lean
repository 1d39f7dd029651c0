import ContextFree.Proofs.Cyk.Derivations
import ContextFree.Proofs.Unger.Trees

/-!
# The search on normal grammars

No right-hand side of a normal grammar mentions a symbol that may be empty, so nothing is found on
empty parts, whether they are allowed or not (`Unger.found_eq_nil_of_mentioned`). That leaves pairs
with the same halves that a chart is asked for. Since both halves are shorter, no attempt is ever
given up, and the search finds the same trees in the same order as are found from the chart
(`Unger.found_eq_trees`).

On any grammar both methods decide whether it generates the input (`Grammar.parsers_agree`), one by
way of the normal form and a chart, the other on the rules as they are. Normalizing keeps the
language, and a chart is right about normal grammars. Of the trees that the other method leaves out,
each one can be made smaller, so some tree is left for whatever is generated.
-/

namespace ContextFree

theorem flatMap_filter_of_eq_nil {α β : Type} {l : List α} {p : α → Bool} {f : α → List β}
    (h : ∀ a ∈ l, ¬p a → f a = []) : (l.filter p).flatMap f = l.flatMap f := by
  rw [flatMap_filter]
  refine List.flatMap_congr fun a ha => ?_
  split
  · rfl
  · next hp => exact (h a ha hp).symm

/-- Of distinct elements only one contributes. -/
theorem flatMap_eq_of_eq_nil {α β : Type} [DecidableEq α] {l : List α} {f : α → List β} {a : α}
    (hnodup : l.Nodup) (h : ∀ b ∈ l, b ≠ a → f b = []) :
    l.flatMap f = if a ∈ l then f a else [] := by
  induction l with
  | nil => rfl
  | cons b l ih =>
    obtain ⟨hnot, hnodup⟩ := List.nodup_cons.mp hnodup
    obtain ⟨hb, hl⟩ := List.forall_mem_cons.mp h
    rw [List.flatMap_cons, ih hnodup hl]
    by_cases heq : b = a
    · subst heq
      simp [hnot]
    · simp [hb heq, Ne.symm heq]

/-- The first and the last length make no difference if they contribute nothing. -/
theorem flatMap_range_succ {β : Type} {f : Nat → List β} {n : Nat} (hzero : f 0 = [])
    (hlast : f n = []) : (List.range (n + 1)).flatMap f = (List.range' 1 (n - 1)).flatMap f := by
  cases n with
  | zero => simp [hzero]
  | succ n =>
    rw [List.range_succ, List.flatMap_append, List.flatMap_singleton, hlast, List.append_nil,
      List.range_eq_range', List.range'_succ, List.flatMap_cons, hzero, List.nil_append,
      Nat.add_sub_cancel]

theorem Grammar.nodup_rulesFor {g : Grammar} (symbol : Nonterminal) : (g.rulesFor symbol).Nodup :=
  g.nodup.filter _

namespace Unger

variable {g : Grammar} {emptyParts : EmptyParts} {input : List Token} {active : List Attempt}
  {attempt : Attempt} {depth : Nat} {part : Span} {rule : Rule}
  {symbol left right : Nonterminal}

/-! ## One and two items -/

theorem fits_single (item : Expr) (hnot : attempt ∉ active)
    (hitems : attempt.rule.rhs.items = [item]) :
    fits g emptyParts input (depth + 1) active attempt =
      if admits g input item attempt.span then
        (options (found g emptyParts input depth (attempt :: active)) item attempt.span).map
          fun child => .node attempt.rule.lhs [child]
      else [] := by
  rw [fits_of_notMem hnot, candidates, hitems]
  by_cases hadmits : admits g input item attempt.span
  · simp [Span.partitions, hadmits, combinations, ← List.map_eq_flatMap]
  · simp [Span.partitions, hadmits]

/-- A symbol without rules is admitted nowhere, but nothing is found for it anyway. -/
theorem found_eq_nil_of_not_admits (h : ¬admits g input (.nonterminal symbol) part) :
    found g emptyParts input depth active symbol part = [] := by
  have hnone : g.rulesFor symbol = [] := by simpa [Grammar.rulesFor, admits] using h
  rw [found, hnone, List.flatMap_nil]

theorem fits_pair (hnot : attempt ∉ active)
    (hrhs : attempt.rule.rhs = .seq [.nonterminal left, .nonterminal right]) :
    fits g emptyParts input (depth + 1) active attempt =
      (Span.firstLengths emptyParts attempt.span.length 2).flatMap fun length =>
        (found g emptyParts input depth (attempt :: active) left
          ⟨attempt.span.start, attempt.span.start + length⟩).flatMap fun l =>
            (found g emptyParts input depth (attempt :: active) right
              ⟨attempt.span.start + length, attempt.span.stop⟩).map fun r =>
                .node attempt.rule.lhs [l, r] := by
  rw [fits_of_notMem hnot, candidates, hrhs, flatMap_filter_of_eq_nil]
  · simp [Expr.items, Span.partitions, combinations, options, List.map_flatMap, List.flatMap_map,
      ← List.map_eq_flatMap, Function.comp_def]
  · intro parts hparts hadmits
    obtain ⟨spans, hspans, rfl⟩ := List.mem_map.mp hparts
    obtain ⟨first, second, rfl⟩ := List.length_eq_two.mp (Span.length_of_mem_partitions hspans)
    have hboth : ¬admits g input (.nonterminal left) first ∨
        ¬admits g input (.nonterminal right) second := by
      simpa [Expr.items, imp_iff_not_or] using hadmits
    rcases hboth with h | h
    · simp [Expr.items, combinations, options, found_eq_nil_of_not_admits h]
    · simp [Expr.items, combinations, options, found_eq_nil_of_not_admits h]

/-! ## Empty parts -/

theorem fits_eq_nil_of_empty (h : g.IsNormal) (hr : rule ∈ g.rules) (hrhs : rule.rhs ≠ .empty)
    (hpart : part.start = part.stop) : fits g emptyParts input depth active ⟨part, rule⟩ = [] := by
  induction depth generalizing active rule part with
  | zero => rfl
  | succ depth ih =>
    by_cases hactive : ⟨part, rule⟩ ∈ active
    · exact fits_of_mem hactive
    rcases h.rhs_cases hr with hempty | ⟨token, hterminal⟩ | ⟨left, right, hpair⟩
    · exact absurd hempty hrhs
    · rw [fits_single (.terminal token) hactive (by rw [hterminal]; rfl)]
      simp [admits, hpart]
    · rw [fits_pair hactive hpair]
      apply List.flatMap_eq_nil_iff.mpr
      intro length hlength
      have hzero : length = 0 := by
        have := ((Span.mem_firstLengths (by omega)).mp hlength).1
        simp only [Span.length] at this
        omega
      have hleft : found g emptyParts input depth (⟨part, rule⟩ :: active) left
          ⟨part.start, part.start + length⟩ = [] := by
        apply List.flatMap_eq_nil_iff.mpr
        intro r hfor
        obtain ⟨hr', rfl⟩ := Grammar.mem_rulesFor.mp hfor
        refine ih hr' (fun hempty => h.isolated r hr' hempty rule hr ?_) (by simp [hzero])
        simp [hpair, Expr.mem_nonterminals]
      rw [hleft, List.flatMap_nil]

/-- Whatever is mentioned derives no empty part. -/
theorem found_eq_nil_of_mentioned (h : g.IsNormal) (hr : rule ∈ g.rules)
    (hs : symbol ∈ rule.rhs.nonterminals) (hpart : part.start = part.stop) :
    found g emptyParts input depth active symbol part = [] := by
  apply List.flatMap_eq_nil_iff.mpr
  intro r hfor
  obtain ⟨hr', rfl⟩ := Grammar.mem_rulesFor.mp hfor
  exact fits_eq_nil_of_empty h hr' (fun hempty => h.isolated r hr' hempty rule hr hs) hpart

/-- Both halves of a pair have tokens, even if empty parts are allowed. -/
theorem fits_pair_of_isNormal (h : g.IsNormal) (hr : attempt.rule ∈ g.rules)
    (hspan : attempt.span.start ≤ attempt.span.stop) (hnot : attempt ∉ active)
    (hrhs : attempt.rule.rhs = .seq [.nonterminal left, .nonterminal right]) :
    fits g emptyParts input (depth + 1) active attempt =
      (List.range' 1 (attempt.span.length - 1)).flatMap fun length =>
        (found g emptyParts input depth (attempt :: active) left
          ⟨attempt.span.start, attempt.span.start + length⟩).flatMap fun l =>
            (found g emptyParts input depth (attempt :: active) right
              ⟨attempt.span.start + length, attempt.span.stop⟩).map fun r =>
                .node attempt.rule.lhs [l, r] := by
  have hleft : left ∈ attempt.rule.rhs.nonterminals := by simp [hrhs, Expr.mem_nonterminals]
  have hright : right ∈ attempt.rule.rhs.nonterminals := by simp [hrhs, Expr.mem_nonterminals]
  rw [fits_pair hnot hrhs]
  cases emptyParts with
  | forbidden =>
    have hlengths : Span.firstLengths .forbidden attempt.span.length 2 =
        List.range' 1 (attempt.span.length - 1) := by
      rw [Span.firstLengths]
      split
      · congr 1
        omega
      · rw [show attempt.span.length - 1 = 0 by omega, List.range'_zero]
    rw [hlengths]
  | allowed =>
    apply flatMap_range_succ
    · rw [found_eq_nil_of_mentioned h hr hleft rfl, List.flatMap_nil]
    · apply List.flatMap_eq_nil_iff.mpr
      intro l _
      rw [found_eq_nil_of_mentioned h hr hright (by simp only [Span.length]; omega), List.map_nil]

end Unger

namespace Cyk

variable {g : Grammar} {input : List Token} {goal : Goal} {bound : Nat}

/-- Asking the chart saves work, but nothing would be found without asking either. -/
theorem trees_of_length_ne_one (h : g.IsNormal) (hgoal : goal.Within input)
    (hbound : goal.length ≤ bound + 1) (hone : goal.length ≠ 1) :
    trees g.pairRules (Chart.ofTokens g input) input (bound + 1) goal =
      (splits g.pairRules goal).flatMap fun split =>
        (trees g.pairRules (Chart.ofTokens g input) input bound (goal.first split)).flatMap
          fun left =>
            (trees g.pairRules (Chart.ofTokens g input) input bound (goal.second split)).map
              fun right => .node goal.symbol [left, right] := by
  rw [trees, if_neg hone]
  split
  · next hnot =>
    refine (List.eq_nil_iff_forall_not_mem.mpr fun t ht => ?_).symm
    obtain ⟨split, hsplit, ht⟩ := List.mem_flatMap.mp ht
    obtain ⟨l, hl, r, hr, rfl⟩ := mem_nodes.mp ht
    obtain ⟨hfirst, hsecond⟩ := length_lt_of_mem_splits hsplit
    obtain ⟨hwithin, hwithin'⟩ := hgoal.halves hsplit
    have hmeets : Meets g input goal (.node goal.symbol [l, r]) :=
      (meets_iff_of_length_ne_one h hgoal hone).mpr ⟨split, hsplit, l, r,
        (mem_trees h hwithin (by omega)).mp hl, (mem_trees h hwithin' (by omega)).mp hr, rfl⟩
    have hmem := hmeets.isDerivation.mem_languages hmeets.root
    rw [hmeets.tokens, ← contains_iff_of_within h hgoal] at hmem
    simp [hmem] at hnot
  · rfl

/-- The ways to derive a goal through a pair, rule by rule. -/
theorem flatMap_splits {β : Type} (f : PairRule × Nat → List β) :
    (splits g.pairRules goal).flatMap f = (g.rulesFor goal.symbol).flatMap fun rule =>
      rule.pair?.toList.flatMap fun pair =>
        (List.range' 1 (goal.length - 1)).flatMap fun length => f (pair, length) := by
  have hfilter : g.pairRules.filter (fun pair => decide (pair.lhs = goal.symbol)) =
      (g.rulesFor goal.symbol).filterMap Rule.pair? := by
    rw [Grammar.pairRules, Grammar.rulesFor, List.filter_filterMap, List.filterMap_filter]
    apply List.filterMap_congr
    intro rule _
    cases hpair : rule.pair? with
    | none => simp
    | some pair => simp [Rule.pair?_eq_some_iff.mp hpair, Option.filter]
  rw [splits, hfilter, List.filterMap_eq_flatMap_toList, List.flatMap_assoc, List.flatMap_assoc]
  simp only [List.flatMap_map]

end Cyk

namespace Unger

open Cyk (Goal trees)

variable {g : Grammar} {emptyParts : EmptyParts} {input : List Token} {active : List Attempt}
  {depth bound : Nat} {goal : Goal} {rule : Rule}

/-! ## The trees for a goal -/

/-- A single token is derived by the rule for it, of which there is at most one. -/
theorem found_of_length_eq_one (h : g.IsNormal) (hgoal : goal.Within input)
    (hone : goal.length = 1) (hnot : ∀ rule, ⟨goal.span, rule⟩ ∉ active) :
    found g emptyParts input (depth + 1) active goal.symbol goal.span =
      trees g.pairRules (Chart.ofTokens g input) input (bound + 1) goal := by
  obtain ⟨token, htoken⟩ : ∃ token, input[goal.start - 1]? = some token := by
    have := hgoal.start_pos
    have := hgoal.le
    exact ⟨_, List.getElem?_eq_getElem (by omega)⟩
  have hslice : goal.span.slice input = [token] :=
    hgoal.span.slice_eq_singleton_iff.mpr ⟨by simp [Goal.span, hone], htoken⟩
  have hcontains : (Chart.ofTokens g input).contains goal.symbol goal.start goal.length ↔
      ⟨goal.symbol, .terminal token⟩ ∈ g.rulesFor goal.symbol := by
    rw [Cyk.contains_iff_of_within h hgoal, hslice, Grammar.singleton_mem_languages_iff h]
    simp
  have hothers : ∀ rule ∈ g.rulesFor goal.symbol, rule ≠ ⟨goal.symbol, .terminal token⟩ →
      fits g emptyParts input (depth + 1) active ⟨goal.span, rule⟩ = [] := by
    intro rule hfor hne
    obtain ⟨hr, hlhs⟩ := Grammar.mem_rulesFor.mp hfor
    rcases h.rhs_cases hr with hrhs | ⟨other, hrhs⟩ | ⟨left, right, hrhs⟩
    · rw [fits_single .empty (hnot rule) (by rw [hrhs]; rfl)]
      simp [admits, Goal.span, hone]
    · rw [fits_single (.terminal other) (hnot rule) (by rw [hrhs]; rfl), if_neg]
      intro hadmits
      obtain rfl : token = other := by simpa [admits, Goal.span, hone, htoken] using hadmits
      exact hne (by rw [← hlhs, ← hrhs])
    · rw [fits_pair_of_isNormal h hr hgoal.span.le (hnot rule) hrhs]
      simp [Goal.span, Span.length, hone]
  rw [found, flatMap_eq_of_eq_nil (Grammar.nodup_rulesFor _) hothers, trees, if_pos hone]
  by_cases hmem : (⟨goal.symbol, .terminal token⟩ : Rule) ∈ g.rulesFor goal.symbol
  · rw [if_pos hmem, fits_single (.terminal token) (hnot _) rfl, hcontains.mpr hmem]
    simp [hone, htoken, admits, options, Goal.span]
  · rw [if_neg hmem]
    simp [mt hcontains.mp hmem]

theorem found_eq_trees (h : g.IsNormal) (hgoal : goal.Within input) (hdepth : goal.length ≤ depth)
    (hbound : goal.length ≤ bound)
    (hactive : ∀ attempt ∈ active, goal.length < attempt.span.length) :
    found g emptyParts input depth active goal.symbol goal.span =
      trees g.pairRules (Chart.ofTokens g input) input bound goal := by
  induction depth generalizing goal active bound with
  | zero => exact absurd hgoal.length_pos (by omega)
  | succ depth ih =>
    obtain ⟨bound, rfl⟩ := Nat.exists_eq_add_one.mpr (hgoal.length_pos.trans_le hbound)
    have hlength : goal.span.length = goal.length := by simp [Goal.span, Span.length]
    have hnot (rule : Rule) : ⟨goal.span, rule⟩ ∉ active :=
      fun hmem => absurd (hactive _ hmem) (by simp [hlength])
    by_cases hone : goal.length = 1
    · exact found_of_length_eq_one h hgoal hone hnot
    rw [Cyk.trees_of_length_ne_one h hgoal hbound hone, Cyk.flatMap_splits, found]
    apply List.flatMap_congr
    intro rule hfor
    obtain ⟨hr, hlhs⟩ := Grammar.mem_rulesFor.mp hfor
    rcases h.rhs_cases hr with hrhs | ⟨token, hrhs⟩ | ⟨left, right, hrhs⟩
    · rw [fits_single .empty (hnot rule) (by rw [hrhs]; rfl)]
      have := hgoal.length_pos
      simp [Rule.pair?, hrhs, admits, Goal.span]
      omega
    · rw [fits_single (.terminal token) (hnot rule) (by rw [hrhs]; rfl)]
      simp [Rule.pair?, hrhs, admits, Goal.span, hone]
    · have hpair : rule.pair? = some ⟨goal.symbol, left, right⟩ :=
        Rule.pair?_eq_some_iff.mpr (by rw [← hlhs, ← hrhs])
      rw [fits_pair_of_isNormal h hr hgoal.span.le (hnot rule) hrhs, hpair, Option.toList_some,
        List.flatMap_singleton, hlength]
      apply List.flatMap_congr
      intro length hrange
      have hsplit : (⟨goal.symbol, left, right⟩, length) ∈ Cyk.splits g.pairRules goal := by
        refine Cyk.mem_splits.mpr ⟨Chart.mem_pairRules.mpr ?_, rfl, ?_⟩
        · rwa [← hlhs, ← hrhs]
        · rw [List.mem_range'_1] at hrange
          omega
      obtain ⟨hwithin, hwithin'⟩ := hgoal.halves hsplit
      obtain ⟨hfirst, hsecond⟩ := Cyk.length_lt_of_mem_splits hsplit
      have hshorter (half : Goal) (hlt : half.length < goal.length) :
          ∀ attempt ∈ (⟨goal.span, rule⟩ :: active : List Attempt),
            half.length < attempt.span.length :=
        List.forall_mem_cons.mpr ⟨by rwa [hlength], fun a ha => hlt.trans (hactive a ha)⟩
      rw [← ih hwithin (by omega) (by omega) (hshorter _ hfirst),
        ← ih hwithin' (by omega) (by omega) (hshorter _ hsecond)]
      have hsecondSpan : (goal.second (⟨goal.symbol, left, right⟩, length)).span =
          ⟨goal.span.start + length, goal.span.stop⟩ := by
        have := hgoal.start_pos
        have : length < goal.length := hfirst
        simp only [Goal.span, Goal.second]
        congr 1 <;> omega
      rw [hsecondSpan, hlhs]
      rfl

/-- On the empty input only a rule of the start symbol for the empty string matches. -/
theorem found_of_empty (h : g.IsNormal) {start : Nonterminal} (hstart : g.start? = some start) :
    found g emptyParts [] (depth + 1) [] start ⟨0, 0⟩ =
      if Cyk.acceptsEmpty g then [.node start [.epsilon]] else [] := by
  have hothers : ∀ rule ∈ g.rulesFor start, rule ≠ ⟨start, .empty⟩ →
      fits g emptyParts [] (depth + 1) [] ⟨⟨0, 0⟩, rule⟩ = [] := by
    intro rule hfor hne
    obtain ⟨hr, hlhs⟩ := Grammar.mem_rulesFor.mp hfor
    exact fits_eq_nil_of_empty h hr (fun hrhs => hne (by rw [← hlhs, ← hrhs])) rfl
  have hfor : ⟨start, .empty⟩ ∈ g.rulesFor start ↔ Cyk.acceptsEmpty g := by
    rw [Cyk.acceptsEmpty_iff_mem hstart]
    simp
  rw [found, flatMap_eq_of_eq_nil (Grammar.nodup_rulesFor _) hothers,
    fits_single .empty List.not_mem_nil rfl]
  simp [hfor, admits, options]

theorem length_lt_maxDepth (hne : g.rules ≠ []) : input.length < maxDepth g input := by
  have hpos : 1 ≤ g.rules.length := List.length_pos_of_ne_nil hne
  have hsquare : input.length + 1 ≤ (input.length + 1) * (input.length + 1) :=
    Nat.le_mul_of_pos_left _ (Nat.succ_pos _)
  have hmul := Nat.mul_le_mul hpos hsquare
  rw [maxDepth]
  omega

end Unger

namespace Grammar

variable {g : Grammar} {w : List Token}

theorem IsNormal.ungerTrees_eq_parse (h : g.IsNormal) (emptyParts : EmptyParts) :
    g.ungerTrees emptyParts w = Cyk.parse g w := by
  have hself : g.splitAlternatives = g := splitAlternatives_eq_self h.isChoiceFree
  rw [ungerTrees_eq, hself, Cyk.parse_eq_plainParse, Cyk.plainParse]
  cases hstart : g.start? with
  | none => rfl
  | some start =>
    have hlt : w.length < Unger.maxDepth g w :=
      Unger.length_lt_maxDepth fun hnil => by simp [start?_eq_none_iff.mpr hnil] at hstart
    obtain ⟨depth, hdepth⟩ := Nat.exists_eq_add_one.mpr ((Nat.zero_le _).trans_lt hlt)
    rw [Option.elim_some, Option.elim_some, hdepth]
    split
    · next hempty =>
      obtain rfl := List.isEmpty_iff.mp hempty
      exact Unger.found_of_empty h hstart
    · next hne =>
      have hwithin := Cyk.within_whole (by simpa using hne) start
      have hspan : (⟨start, 1, w.length⟩ : Cyk.Goal).span = ⟨0, w.length⟩ := by
        simp [Cyk.Goal.span]
      rw [← hspan]
      exact Unger.found_eq_trees h hwithin (by simp only; omega) le_rfl (by simp)

/-- On the normal form of a grammar, if the program does not stop before, the search without a chart
ends and finds the trees that are found from the chart, in the same order. It does not matter
whether empty parts are allowed. -/
theorem ungerTrees_toCnf (a : Arithmetic) (g : Grammar) (w : List Token) :
    (g.toCnf? a = none ↔ g.Overflows a) ∧
    ∀ cnf, g.toCnf? a = some cnf → ∀ emptyParts,
      (Unger.search cnf.splitAlternatives emptyParts w).map Prod.fst = some (Cyk.parse cnf w) ∧
        cnf.ungerTrees emptyParts w = Cyk.parse cnf w := by
  refine ⟨toCnf?_eq_none_iff, fun cnf hcnf emptyParts => ?_⟩
  obtain ⟨-, rfl⟩ := toCnf?_eq_some_iff.mp hcnf
  have heq : (g.toCnf a).ungerTrees emptyParts w = Cyk.parse (g.toCnf a) w :=
    (g.isNormal_toCnf a).ungerTrees_eq_parse emptyParts
  refine ⟨?_, heq⟩
  obtain ⟨cycles, hsearch⟩ := Unger.search_eq (g.toCnf a).splitAlternatives emptyParts w
  rw [← heq, ungerTrees, hsearch]
  rfl

/-- An input with two trees, either way. -/
theorem ungerTrees_toCnf_ambiguous :
    let g : Grammar := ⟨[⟨⟨"S"⟩, .seq [.nonterminal ⟨"S"⟩, .nonterminal ⟨"S"⟩]⟩,
      ⟨⟨"S"⟩, .alt [.terminal "a", .empty]⟩], by decide, by decide⟩
    ∃ cnf, g.toCnf? (.checked 64) = some cnf ∧
      cnf.ungerTrees .forbidden ["a", "a", "a"] = Cyk.parse cnf ["a", "a", "a"] ∧
      (Cyk.parse cnf ["a", "a", "a"]).length = 2 := by
  intro g
  have hcnf : g.toCnf? (.checked 64) = some (g.toCnf (.checked 64)) :=
    toCnf?_eq_some_iff.mpr ⟨Fits.not_overflows (by decide), rfl⟩
  obtain ⟨-, hequal⟩ := (ungerTrees_toCnf (.checked 64) g ["a", "a", "a"]).2 _ hcnf .forbidden
  refine ⟨_, hcnf, hequal, ?_⟩
  rw [Cyk.parse_eq_plainParse]
  decide +kernel

/-! ## The parsers agree -/

theorem recognizes_toCnf_iff :
    Cyk.recognizes (g.toCnf .unbounded) w ↔ g.Generates w := by
  rw [Cyk.recognizes_iff (g.isNormal_toCnf .unbounded), g.preserves_toCnf.generates_iff]

/-- The chart, its trees and the search without a chart give the same answer, and it is right. -/
theorem parsers_agree (g : Grammar) (w : List Token) :
    (Cyk.recognizes (g.toCnf .unbounded) w ↔ g.Generates w) ∧
      (g.cykTrees .unbounded w ≠ [] ↔ g.Generates w) ∧
      (g.ungerTrees .allowed w ≠ [] ↔ g.Generates w) :=
  ⟨recognizes_toCnf_iff, cykTrees_ne_nil_iff, ungerTrees_allowed_ne_nil_iff⟩

end Grammar

end ContextFree
