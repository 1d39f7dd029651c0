import ContextFree.Cyk.Derivations
import ContextFree.Proofs.Grammar.NormalForm
import ContextFree.Proofs.Unger.Span

/-!
# What a chart tells

In a normal grammar a nonempty part of the input is derived by a rule for its only token, or by a
rule for a pair that derives two shorter parts, neither of which is empty. So the cells of the chart
hold the nonterminals that derive their parts (`Chart.mem_cell`), which is proved by induction on
the length.
-/

namespace ContextFree

theorem Expr.denote_pair {I : Valuation} (left right : Nonterminal) :
    (seq [.nonterminal left, .nonterminal right]).denote spell I = I left * I right := by
  simp

theorem Rule.pair?_eq_some_iff {rule : Rule} {pair : PairRule} : rule.pair? = some pair ↔
    rule = ⟨pair.lhs, .seq [.nonterminal pair.left, .nonterminal pair.right]⟩ := by
  obtain ⟨lhs, rhs⟩ := rule
  simp only [pair?]
  split
  · next _ left right =>
    constructor
    · intro h
      obtain rfl := Option.some.inj h
      rfl
    · intro h
      simp only [Rule.mk.injEq, Expr.seq.injEq, List.cons.injEq, Expr.nonterminal.injEq,
        and_true] at h
      obtain ⟨rfl, rfl, rfl⟩ := h
      rfl
  · next hne =>
    refine ⟨fun h => by simp at h, fun h => ?_⟩
    exact absurd (Rule.mk.inj h).2 (hne pair.left pair.right)

namespace Grammar

variable {g : Grammar} {symbol left right : Nonterminal} {token : Token} {w : List Token}
  {rule : Rule}

/-! ## Normal grammars -/

/-- All token lists, the empty one only for the symbols with a rule for it. -/
def withEmptyRules (g : Grammar) : Valuation :=
  fun symbol => {w | w = [] → ⟨symbol, .empty⟩ ∈ g.rules}

theorem empty_rule_of_nil_mem (h : g.IsNormal) (hnil : [] ∈ g.languages symbol) :
    ⟨symbol, .empty⟩ ∈ g.rules := by
  refine languages_le (I := g.withEmptyRules) ?_ symbol hnil rfl
  rintro ⟨lhs, rhs⟩ hr w hw rfl
  rcases h.normal _ hr with hempty | hnormal
  · obtain rfl : rhs = .empty := hempty
    exact hr
  · cases hnormal with
    | terminal token => exact absurd (mem_spell.mp hw) (by simp)
    | pair left right =>
      -- The left symbol would have a rule for the empty string, although it is mentioned.
      have hprod : [] ∈ g.withEmptyRules left * g.withEmptyRules right := by
        rw [← Expr.denote_pair]
        exact hw
      obtain ⟨u, hu, v, -, huv⟩ := Language.mem_mul.mp hprod
      obtain ⟨rfl, -⟩ := List.append_eq_nil_iff.mp huv
      exact absurd (by simp [Expr.mem_nonterminals]) (h.isolated _ (hu rfl) rfl _ hr)

theorem ne_nil_of_mem_languages (h : g.IsNormal) (hr : rule ∈ g.rules)
    (hs : symbol ∈ rule.rhs.nonterminals) (hw : w ∈ g.languages symbol) : w ≠ [] := by
  rintro rfl
  exact h.isolated _ (empty_rule_of_nil_mem h hw) rfl rule hr hs

theorem mem_languages_pair (hr : ⟨symbol, .seq [.nonterminal left, .nonterminal right]⟩ ∈ g.rules)
    {u v : List Token} (hu : u ∈ g.languages left) (hv : v ∈ g.languages right) :
    u ++ v ∈ g.languages symbol := by
  refine mem_languages_iff.mpr ⟨_, hr, rfl, ?_⟩
  rw [Expr.denote_pair]
  exact Language.append_mem_mul hu hv

/-- How a normal grammar derives tokens. -/
theorem mem_languages_iff_of_isNormal (h : g.IsNormal) (hw : w ≠ []) : w ∈ g.languages symbol ↔
    (∃ token, ⟨symbol, .terminal token⟩ ∈ g.rules ∧ w = [token]) ∨
      ∃ left right, ⟨symbol, .seq [.nonterminal left, .nonterminal right]⟩ ∈ g.rules ∧
        ∃ u v, u ≠ [] ∧ v ≠ [] ∧ u ∈ g.languages left ∧ v ∈ g.languages right ∧ w = u ++ v := by
  constructor
  · intro hmem
    obtain ⟨⟨lhs, rhs⟩, hr, rfl, hrhs⟩ := mem_languages_iff.mp hmem
    rcases h.normal _ hr with hempty | hnormal
    · obtain rfl : rhs = .empty := hempty
      exact absurd hrhs hw
    · cases hnormal with
      | terminal token => exact .inl ⟨token, hr, mem_spell.mp hrhs⟩
      | pair left right =>
        rw [Expr.denote_pair] at hrhs
        obtain ⟨u, hu, v, hv, rfl⟩ := Language.mem_mul.mp hrhs
        refine .inr ⟨left, right, hr, u, v, ?_, ?_, hu, hv, rfl⟩
        · exact ne_nil_of_mem_languages h hr (by simp [Expr.mem_nonterminals]) hu
        · exact ne_nil_of_mem_languages h hr (by simp [Expr.mem_nonterminals]) hv
  · intro h'
    rcases h' with ⟨token, hr, rfl⟩ | ⟨left, right, hr, u, v, -, -, hu, hv, rfl⟩
    · exact holds_languages hr (mem_spell.mpr rfl)
    · exact mem_languages_pair hr hu hv

theorem singleton_mem_languages_iff (h : g.IsNormal) :
    [token] ∈ g.languages symbol ↔ ⟨symbol, .terminal token⟩ ∈ g.rules := by
  rw [mem_languages_iff_of_isNormal h (by simp)]
  constructor
  · intro h'
    rcases h' with ⟨token', hr, heq⟩ | ⟨left, right, -, u, v, hu, hv, -, -, heq⟩
    · rwa [(List.cons.inj heq).1]
    · have := congrArg List.length heq
      have := List.length_pos_of_ne_nil hu
      have := List.length_pos_of_ne_nil hv
      simp at *
      omega
  · exact fun hr => .inl ⟨token, hr, rfl⟩

/-- Of several tokens the first half can be any nonempty part that leaves something. -/
theorem slice_mem_languages_iff (h : g.IsNormal) {input : List Token} {start length : Nat}
    (hlength : 2 ≤ length) (hstop : start + length ≤ input.length) :
    Span.slice input ⟨start, start + length⟩ ∈ g.languages symbol ↔
      ∃ left right, ⟨symbol, .seq [.nonterminal left, .nonterminal right]⟩ ∈ g.rules ∧
        ∃ first, 1 ≤ first ∧ first < length ∧
          Span.slice input ⟨start, start + first⟩ ∈ g.languages left ∧
          Span.slice input ⟨start + first, start + length⟩ ∈ g.languages right := by
  have hwithin : (⟨start, start + length⟩ : Span).Within input := ⟨Nat.le_add_right _ _, hstop⟩
  have hslice := hwithin.length_slice
  simp only [Nat.add_sub_cancel_left] at hslice
  rw [mem_languages_iff_of_isNormal h (List.ne_nil_of_length_pos (by omega))]
  constructor
  · intro h'
    rcases h' with ⟨token, -, heq⟩ | ⟨left, right, hr, u, v, hu, hv, hleft, hright, heq⟩
    · rw [heq] at hslice
      simp at hslice
      omega
    · have hulen := List.length_pos_of_ne_nil hu
      have hvlen := List.length_pos_of_ne_nil hv
      have hsum : u.length + v.length = length := by rw [← hslice, heq, List.length_append]
      have hsplit := Span.slice_append input (Nat.le_add_right start u.length)
        (show start + u.length ≤ start + length by omega)
      rw [heq] at hsplit
      have hfirst : (⟨start, start + u.length⟩ : Span).Within input :=
        ⟨Nat.le_add_right _ _, by simp only; omega⟩
      obtain ⟨hueq, hveq⟩ := List.append_inj hsplit (by simp [hfirst.length_slice])
      exact ⟨left, right, hr, u.length, hulen, by omega, by rwa [hueq], by rwa [hveq]⟩
  · intro h'
    obtain ⟨left, right, hr, first, hpos, hlt, hleft, hright⟩ := h'
    have hfirst : (⟨start, start + first⟩ : Span).Within input :=
      ⟨Nat.le_add_right _ _, by simp only; omega⟩
    have hrest : (⟨start + first, start + length⟩ : Span).Within input :=
      ⟨by simp only; omega, hstop⟩
    refine .inr ⟨left, right, hr, _, _, ?_, ?_, hleft, hright,
      (Span.slice_append input (by omega) (by omega)).symm⟩
    · exact List.ne_nil_of_length_pos (by simp [hfirst.length_slice]; omega)
    · exact List.ne_nil_of_length_pos (by simp [hrest.length_slice]; omega)

end Grammar

namespace Chart

variable {g : Grammar} {input : List Token} {symbol : Nonterminal} {count length start : Nat}

/-! ## Rows -/

@[simp] theorem length_firstRows : (firstRows g input count).length = count := by
  induction count with
  | zero => rfl
  | succ count ih => simp [firstRows, ih]

theorem getElem?_firstRows (h : length < count) :
    (firstRows g input count)[length]? = some (nextRow g input (firstRows g input length)) := by
  induction count with
  | zero => omega
  | succ count ih =>
    rw [firstRows]
    rcases Nat.lt_succ_iff_lt_or_eq.mp h with hlt | rfl
    · rw [List.getElem?_append_left (by simpa using hlt), ih hlt]
    · simp

theorem cell_firstRows (h : length < count) : cell (firstRows g input count) start (length + 1) =
    (nextRow g input (firstRows g input length))[start]?.getD [] := by
  rw [cell, Nat.add_sub_cancel, getElem?_firstRows h]
  rfl

theorem nextRow_firstRows_succ : nextRow g input (firstRows g input (length + 1)) =
    (List.range (input.length - (length + 1))).map fun start =>
      join g.nonterminals g.pairRules ((List.range' 1 (length + 1)).map fun first =>
        (cell (firstRows g input (length + 1)) start first,
          cell (firstRows g input (length + 1)) (start + first) (length + 2 - first))) := by
  rw [nextRow]
  · simp
  · exact List.ne_nil_of_length_pos (by simp)

/-! ## Cells -/

theorem mem_pairRules {pair : PairRule} : pair ∈ g.pairRules ↔
    ⟨pair.lhs, .seq [.nonterminal pair.left, .nonterminal pair.right]⟩ ∈ g.rules := by
  simp only [Grammar.pairRules, List.mem_filterMap, Rule.pair?_eq_some_iff, exists_eq_right]

theorem mem_producers {token : Token} :
    symbol ∈ g.producers token ↔ ⟨symbol, .terminal token⟩ ∈ g.rules := by
  simp only [Grammar.producers, List.mem_filter, List.contains_iff_mem, and_iff_right_iff_imp]
  exact fun hr => Grammar.mem_nonterminals.mpr ⟨_, hr, .inl rfl⟩

theorem mem_join {pairs : List PairRule} {halves : List (Cell × Cell)}
    {symbols : List Nonterminal} : symbol ∈ join symbols pairs halves ↔ symbol ∈ symbols ∧
      ∃ pair ∈ pairs, pair.lhs = symbol ∧
        ∃ half ∈ halves, pair.left ∈ half.1 ∧ pair.right ∈ half.2 := by
  simp [join]

theorem mem_cell (h : g.IsNormal) (hpos : 0 < length) (hlength : length ≤ count)
    (hstop : start + length ≤ input.length) :
    symbol ∈ cell (firstRows g input count) start length ↔
      Span.slice input ⟨start, start + length⟩ ∈ g.languages symbol := by
  induction length using Nat.strong_induction_on generalizing count start symbol with
  | _ length ih =>
    match length, hpos with
    | 1, _ =>
      have hlt : start < input.length := by omega
      have hslice : Span.slice input ⟨start, start + 1⟩ = [input[start]] := by
        refine (Span.Within.slice_eq_singleton_iff ⟨Nat.le_add_right _ _, hstop⟩).mpr ⟨rfl, ?_⟩
        exact List.getElem?_eq_getElem hlt
      rw [cell_firstRows (by omega), hslice, Grammar.singleton_mem_languages_iff h, ← mem_producers]
      simp [firstRows, nextRow, hlt]
    | length + 2, _ =>
      have hlt : start < input.length - (length + 1) := by omega
      rw [cell_firstRows (by omega), nextRow_firstRows_succ, List.getElem?_map,
        List.getElem?_range hlt, Option.map_some, Option.getD_some, mem_join,
        Grammar.slice_mem_languages_iff h (by omega) hstop]
      -- Both halves are shorter, so their cells are known to be right.
      have hfirst (s : Nonterminal) {first : Nat} (hpos : 1 ≤ first) (hlt : first < length + 2) :
          s ∈ cell (firstRows g input (length + 1)) start first ↔
            Span.slice input ⟨start, start + first⟩ ∈ g.languages s :=
        ih first hlt hpos (by omega) (by omega)
      have hsecond (s : Nonterminal) {first : Nat} (hpos : 1 ≤ first) (hlt : first < length + 2) :
          s ∈ cell (firstRows g input (length + 1)) (start + first) (length + 2 - first) ↔
            Span.slice input ⟨start + first, start + (length + 2)⟩ ∈ g.languages s := by
        have hsum : start + first + (length + 2 - first) = start + (length + 2) := by omega
        rw [ih (length + 2 - first) (by omega) (by omega) (by omega) (by omega), hsum]
      constructor
      · intro h'
        obtain ⟨-, ⟨lhs, left, right⟩, hpair, rfl, half, hhalf, hleft, hright⟩ := h'
        obtain ⟨first, hrange, rfl⟩ := List.mem_map.mp hhalf
        obtain ⟨hpos, hlt⟩ := List.mem_range'_1.mp hrange
        refine ⟨left, right, mem_pairRules.mp hpair, first, hpos, by omega, ?_, ?_⟩
        · exact (hfirst left hpos (by omega)).mp hleft
        · exact (hsecond right hpos (by omega)).mp hright
      · intro h'
        obtain ⟨left, right, hr, first, hpos, hlt, hleft, hright⟩ := h'
        refine ⟨Grammar.mem_nonterminals.mpr ⟨_, hr, .inl rfl⟩, ⟨symbol, left, right⟩,
          mem_pairRules.mpr hr, rfl, _, List.mem_map.mpr ⟨first, ?_, rfl⟩, ?_, ?_⟩
        · exact List.mem_range'_1.mpr ⟨hpos, by omega⟩
        · exact (hfirst left hpos hlt).mpr hleft
        · exact (hsecond right hpos hlt).mpr hright

/-! ## The chart of an input -/

theorem last?_unbounded (hpos : 0 < start + length) :
    last? .unbounded start length = some (start + length - 1) := by
  obtain ⟨last, hsum⟩ := Nat.exists_eq_add_one.mpr hpos
  rw [last?, Arithmetic.add?, hsum]
  rfl

theorem cellAt?_eq (chart : Chart) (start length : Nat) : chart.cellAt? start length =
    if start = 0 ∨ length = 0 ∨ chart.length < start + length - 1 then none
    else (chart.rows[length - 1]?).bind (·[start - 1]?) := by
  by_cases hzero : start = 0 ∨ length = 0
  · rw [cellAt?, lookup?, if_pos hzero, if_pos (by omega)]
    rfl
  · rw [cellAt?, lookup?, if_neg hzero, last?_unbounded (by omega), Option.map_some,
      Option.join_some]
    exact if_congr (by omega) rfl rfl

theorem contains_iff (h : g.IsNormal) : (ofTokens g input).contains symbol start length ↔
    0 < start ∧ 0 < length ∧ start + length ≤ input.length + 1 ∧
      Span.slice input ⟨start - 1, start - 1 + length⟩ ∈ g.languages symbol := by
  have hlookup : (ofTokens g input).length = input.length := length_firstRows
  rw [contains, cellAt?_eq, hlookup]
  split
  · simp
    omega
  · next hin =>
    have hcell : cell (firstRows g input input.length) (start - 1) length =
        (((ofTokens g input).rows[length - 1]?).bind (·[start - 1]?)).getD [] := rfl
    rw [← mem_cell h (by omega) (show length ≤ input.length by omega) (by omega), hcell]
    cases ((ofTokens g input).rows[length - 1]?).bind (·[start - 1]?) with
    | none => simp
    | some cell =>
      simp only [Option.any_some, List.contains_iff_mem, Option.getD_some]
      exact ⟨fun hmem => ⟨by omega, by omega, by omega, hmem⟩, fun hmem => hmem.2.2.2⟩

end Chart

namespace Cyk

variable {g : Grammar} {input : List Token}

theorem acceptsEmpty_iff_mem {start : Nonterminal} (hstart : g.start? = some start) :
    acceptsEmpty g ↔ ⟨start, .empty⟩ ∈ g.rules := by
  rw [acceptsEmpty, Grammar.startRules, hstart, Option.elim_some, List.any_eq_true]
  constructor
  · intro h
    obtain ⟨⟨lhs, rhs⟩, hfor, hempty⟩ := h
    obtain ⟨hr, rfl⟩ := Grammar.mem_rulesFor.mp hfor
    obtain rfl : rhs = .empty := of_decide_eq_true hempty
    exact hr
  · exact fun hr => ⟨_, Grammar.mem_rulesFor.mpr ⟨hr, rfl⟩, rfl⟩

theorem acceptsEmpty_iff (h : g.IsNormal) {start : Nonterminal} (hstart : g.start? = some start) :
    acceptsEmpty g ↔ [] ∈ g.languages start := by
  rw [acceptsEmpty_iff_mem hstart]
  exact ⟨fun hr => Grammar.holds_languages hr rfl, Grammar.empty_rule_of_nil_mem h⟩

theorem recognizes_iff (h : g.IsNormal) : recognizes g input ↔ g.Generates input := by
  rw [recognizes, Grammar.generates_iff]
  cases hstart : g.start? with
  | none => simp
  | some start =>
    simp only [Option.any_some, Option.some.injEq, exists_eq_left']
    split
    · next hempty =>
      rw [List.isEmpty_iff.mp hempty]
      exact acceptsEmpty_iff h hstart
    · next hne =>
      have hpos : 0 < input.length := List.length_pos_of_ne_nil (by simpa using hne)
      rw [Chart.contains_iff h, Nat.sub_self, Nat.zero_add, Span.slice_whole]
      exact ⟨fun h => h.2.2.2, fun h => ⟨Nat.zero_lt_one, hpos, by omega, h⟩⟩

end Cyk

end ContextFree
