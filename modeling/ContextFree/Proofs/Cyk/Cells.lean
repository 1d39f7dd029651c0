import ContextFree.Proofs.Cyk.Chart

/-!
# The cells of a chart

A row has a cell for each position at which a span of its length fits, so filling the chart never
looks up a cell that is not there (`Chart.ofTokens?_eq_some`). For the normal form of a grammar the
cells hold just the nonterminals that derive their spans (`Chart.ofTokens_toCnf_spec`).
-/

namespace ContextFree

theorem mapM_eq_some_map {α β : Type} {l : List α} {f : α → Option β} {g : α → β}
    (h : ∀ a ∈ l, f a = some (g a)) : l.mapM f = some (l.map g) := by
  induction l with
  | nil => rfl
  | cons a l ih =>
    obtain ⟨ha, hl⟩ := List.forall_mem_cons.mp h
    rw [List.mapM_cons, ha, ih hl]
    rfl

namespace Chart

open Arithmetic (wordCount wordCount_pos)

variable {a : Arithmetic} {g : Grammar} {input : List Token} {count length start : Nat}

/-! ## Filling a chart with checked look-ups -/

/-- The cell at a position counted from 0, for a length counted from 1, if there is one. -/
def cell? (rows : List Row) (start length : Nat) : Option Cell :=
  if length = 0 then none else (rows[length - 1]?).bind (·[start]?)

/-- The row that follows the given ones, unless a cell that it depends on is missing. -/
def nextRow? (g : Grammar) (tokens : List Token) (rows : List Row) : Option Row :=
  match rows with
  | [] => some (tokens.map g.producers)
  | _ => (List.range (tokens.length - rows.length)).mapM fun start => do
    let halves ← (List.range' 1 rows.length).mapM fun length => do
      let first ← cell? rows start length
      let second ← cell? rows (start + length) (rows.length + 1 - length)
      return (first, second)
    return join g.nonterminals g.pairRules halves

/-- The first rows of the chart, unless a cell is looked up that is missing. -/
def firstRows? (g : Grammar) (tokens : List Token) : (count : Nat) → Option (List Row)
  | 0 => some []
  | count + 1 => do
    let rows ← firstRows? g tokens count
    let row ← nextRow? g tokens rows
    return rows ++ [row]

/-- The chart of an input, unless a cell is looked up that is missing. -/
def ofTokens? (g : Grammar) (tokens : List Token) : Option Chart := do
  return ⟨← firstRows? g tokens tokens.length⟩

/-! ## Every look-up succeeds -/

/-- A row has as many cells as there are spans of its length. -/
theorem length_nextRow_firstRows :
    (nextRow g input (firstRows g input length)).length = input.length - length := by
  cases length with
  | zero => simp [firstRows, nextRow]
  | succ length => rw [nextRow_firstRows_succ, List.length_map, List.length_range]

theorem lookup_firstRows (hpos : 0 < length) (hlength : length ≤ count) :
    ((firstRows g input count)[length - 1]?).bind (·[start]?) =
      if start + length ≤ input.length then some (cell (firstRows g input count) start length)
      else none := by
  have hrow : (firstRows g input count)[length - 1]? =
      some (nextRow g input (firstRows g input (length - 1))) := getElem?_firstRows (by omega)
  rw [cell, hrow, Option.bind_some]
  split
  · rw [List.getElem?_eq_getElem (by rw [length_nextRow_firstRows]; omega), Option.getD_some]
  · exact List.getElem?_eq_none (by rw [length_nextRow_firstRows]; omega)

theorem cell?_firstRows (hpos : 0 < length) (hlength : length ≤ count)
    (hstop : start + length ≤ input.length) :
    cell? (firstRows g input count) start length =
      some (cell (firstRows g input count) start length) := by
  rw [cell?, if_neg (by omega), lookup_firstRows hpos hlength, if_pos hstop]

/-- The halves of a span are shorter than the row to be filled, and they fit where the span does. -/
theorem nextRow?_firstRows :
    nextRow? g input (firstRows g input count) =
      some (nextRow g input (firstRows g input count)) := by
  cases count with
  | zero => rfl
  | succ count =>
    rw [nextRow_firstRows_succ, nextRow?]
    · rw [length_firstRows]
      apply mapM_eq_some_map
      intro start hstart
      have hstart : start < input.length - (count + 1) := List.mem_range.mp hstart
      rw [mapM_eq_some_map (g := fun length => (cell (firstRows g input (count + 1)) start length,
        cell (firstRows g input (count + 1)) (start + length) (count + 2 - length)))]
      · rfl
      · intro length hlength
        obtain ⟨hpos, hlt⟩ := List.mem_range'_1.mp hlength
        rw [cell?_firstRows hpos (by omega) (by omega),
          cell?_firstRows (by omega) (by omega) (by omega)]
        rfl
    · exact List.ne_nil_of_length_pos (by simp)

theorem firstRows?_eq_some : firstRows? g input count = some (firstRows g input count) := by
  induction count with
  | zero => rfl
  | succ count ih =>
    rw [firstRows?, ih, Option.bind_eq_bind, Option.bind_some, nextRow?_firstRows]
    rfl

theorem ofTokens?_eq_some (g : Grammar) (input : List Token) :
    ofTokens? g input = some (ofTokens g input) := by
  rw [ofTokens?, firstRows?_eq_some]
  rfl

/-! ## The cells that there are -/

theorem isSome_cellAt?_iff : ((ofTokens g input).cellAt? start length).isSome ↔
    1 ≤ start ∧ 1 ≤ length ∧ start + length - 1 ≤ input.length := by
  have hrows : (ofTokens g input).length = input.length := length_firstRows
  rw [cellAt?_eq, hrows]
  split
  · next hout =>
    simp only [Option.isSome_none, Bool.false_eq_true, false_iff]
    omega
  · next hin =>
    rw [ofTokens, lookup_firstRows (by omega) (by omega), if_pos (by omega)]
    simp only [Option.isSome_some, true_iff]
    omega

/-- There are no cells for spans beyond the end, whether their last position is asked for or not. -/
theorem rows_ofTokens_eq_none (hstart : 1 ≤ start) (hlength : 1 ≤ length)
    (hout : input.length < start + length - 1) :
    ((ofTokens g input).rows[length - 1]?).bind (·[start - 1]?) = none := by
  by_cases hrow : length ≤ input.length
  · rw [ofTokens, lookup_firstRows hlength hrow, if_neg (by omega)]
  · have hrows : (ofTokens g input).rows.length = input.length := length_firstRows
    rw [List.getElem?_eq_none (by omega), Option.bind_none]

theorem last?_wrapping (bits : Nat) (hpos : 0 < start + length) :
    last? (.wrapping bits) start length = some ((start + length - 1) % wordCount bits) := by
  obtain ⟨last, hsum⟩ := Nat.exists_eq_add_one.mpr hpos
  have hlt : last % wordCount bits + 1 ≤ wordCount bits := Nat.mod_lt last (wordCount_pos bits)
  rw [last?, Arithmetic.add?, hsum, Option.bind_some, Nat.add_sub_cancel, ← Nat.mod_add_mod]
  -- a sum that just leaves the words is 0, and before 0 comes the greatest word
  rcases Nat.lt_or_eq_of_le hlt with hfits | hover
  · rw [Nat.mod_eq_of_lt hfits]
    rfl
  · have hgreatest : wordCount bits - 1 = last % wordCount bits := by omega
    rw [hover, Nat.mod_self, Arithmetic.pred?, hgreatest]

theorem last?_checked (bits : Nat) (hpos : 0 < start + length) :
    last? (.checked bits) start length =
      if start + length < wordCount bits then some (start + length - 1) else none := by
  obtain ⟨last, hsum⟩ := Nat.exists_eq_add_one.mpr hpos
  rw [last?, Arithmetic.add?, hsum]
  split <;> rfl

theorem last?_eq_none_iff (hpos : 0 < start + length) :
    last? a start length = none ↔ a.IsChecked ∧ ¬a.IsWord (start + length) := by
  cases a with
  | unbounded => simp [last?_unbounded hpos, Arithmetic.IsChecked]
  | wrapping bits => simp [last?_wrapping bits hpos, Arithmetic.IsChecked]
  | checked bits => simp [last?_checked bits hpos, Arithmetic.IsChecked, Arithmetic.IsWord]

/-- What is lost of a sum that does not fit makes it smaller. -/
theorem last?_le {last : Nat} (hpos : 0 < start + length) (h : last? a start length = some last) :
    last ≤ start + length - 1 := by
  cases a with
  | unbounded =>
    rw [last?_unbounded hpos] at h
    exact (Option.some.inj h).ge
  | wrapping bits =>
    rw [last?_wrapping bits hpos] at h
    exact Option.some.inj h ▸ Nat.mod_le _ _
  | checked bits =>
    rw [last?_checked bits hpos] at h
    split at h
    · exact (Option.some.inj h).ge
    · cases h

theorem lookup?_eq_none_iff : (ofTokens g input).lookup? a start length = none ↔
    a.IsChecked ∧ 1 ≤ start ∧ 1 ≤ length ∧ ¬a.IsWord (start + length) := by
  rw [lookup?]
  split
  · next hzero =>
    refine iff_of_false (by simp) fun h => ?_
    omega
  · next hne =>
    rw [Option.map_eq_none_iff, last?_eq_none_iff (by omega)]
    have hstart : 1 ≤ start := by omega
    have hlength : 1 ≤ length := by omega
    simp only [hstart, hlength, true_and]

/-- A look-up that does not stop finds the cell, although the last position may be too small. -/
theorem eq_cellAt?_of_lookup?_eq_some {cell? : Option Cell}
    (h : (ofTokens g input).lookup? a start length = some cell?) :
    cell? = (ofTokens g input).cellAt? start length := by
  have hrows : (ofTokens g input).length = input.length := length_firstRows
  rw [lookup?] at h
  rw [cellAt?_eq, hrows]
  split at h
  · next hzero => rw [if_pos (by omega), ← Option.some.inj h]
  · next hne =>
    obtain ⟨last, hlast, rfl⟩ := Option.map_eq_some_iff.mp h
    have hle := last?_le (by omega) hlast
    rw [hrows]
    by_cases hout : input.length < start + length - 1
    · rw [rows_ofTokens_eq_none (by omega) (by omega) hout, ite_self, ite_self]
    · rw [if_neg (by omega), if_neg (by omega)]

/-- Unless the program stops on the way to the normal form, its chart is filled without a look-up of
a missing cell. It has the cells of all spans of the input, and a nonterminal is in a cell if and
only if it derives the span. Cells that are looked up far from the input may stop the program. -/
theorem ofTokens_toCnf_spec (a : Arithmetic) (g : Grammar) (w : List Token) :
    (g.toCnf? a = none ↔ g.Overflows a) ∧
    ∀ cnf, g.toCnf? a = some cnf →
      ofTokens? cnf w = some (ofTokens cnf w) ∧
      (∀ start length, (ofTokens cnf w).lookup? a start length = none ↔
        a.IsChecked ∧ 1 ≤ start ∧ 1 ≤ length ∧ ¬a.IsWord (start + length)) ∧
      ∀ start length cell?, (ofTokens cnf w).lookup? a start length = some cell? →
        (cell?.isSome ↔ 1 ≤ start ∧ 1 ≤ length ∧ start + length - 1 ≤ w.length) ∧
        ∀ symbol, ∃ answer, (ofTokens cnf w).contains? a symbol start length = some answer ∧
          (answer ↔ cell?.isSome ∧
            cnf.Derives (.nonterminal symbol) ((w.drop (start - 1)).take length)) := by
  refine ⟨Grammar.toCnf?_eq_none_iff, fun cnf hcnf => ?_⟩
  obtain ⟨-, rfl⟩ := Grammar.toCnf?_eq_some_iff.mp hcnf
  refine ⟨ofTokens?_eq_some _ _, fun start length => lookup?_eq_none_iff,
    fun start length cell? hlookup => ?_⟩
  obtain rfl := eq_cellAt?_of_lookup?_eq_some hlookup
  refine ⟨isSome_cellAt?_iff, fun symbol =>
    ⟨(ofTokens (g.toCnf a) w).contains symbol start length, by rw [contains?, hlookup]; rfl, ?_⟩⟩
  have hslice : Span.slice w ⟨start - 1, start - 1 + length⟩ =
      (w.drop (start - 1)).take length := by
    simp [Span.slice, Span.length]
  rw [contains_iff (g.isNormal_toCnf a), isSome_cellAt?_iff, hslice, Grammar.mem_languages]
  constructor
  · intro h
    obtain ⟨hstart, hlength, hstop, hderives⟩ := h
    exact ⟨⟨hstart, hlength, by omega⟩, hderives⟩
  · intro h
    obtain ⟨⟨hstart, hlength, hstop⟩, hderives⟩ := h
    exact ⟨hstart, hlength, by omega, hderives⟩

/-- The cell of the whole input is there, and one whose last position is no word stops the
program. -/
theorem ofTokens_toCnf_spec_far :
    let g : Grammar := ⟨[⟨⟨"S"⟩, .alt [.seq [.nonterminal ⟨"S"⟩, .nonterminal ⟨"S"⟩],
      .terminal "a", .empty]⟩], by decide, by decide⟩
    ∃ cnf, g.toCnf? (.checked 64) = some cnf ∧
      (ofTokens cnf ["a", "a"]).lookup? (.checked 64) (2 ^ 63) (2 ^ 63) = none ∧
      (ofTokens cnf ["a", "a"]).contains? (.checked 64) ⟨"S"⟩ 1 2 = some true ∧
      cnf.Derives (.nonterminal ⟨"S"⟩) ["a", "a"] := by
  intro g
  have hcnf : g.toCnf? (.checked 64) = some (g.toCnf (.checked 64)) :=
    Grammar.toCnf?_eq_some_iff.mpr ⟨Grammar.Fits.not_overflows (by decide), rfl⟩
  obtain ⟨-, hstops, hcells⟩ := (ofTokens_toCnf_spec (.checked 64) g ["a", "a"]).2 _ hcnf
  obtain ⟨cell?, hcell⟩ : ∃ cell?, (ofTokens (g.toCnf (.checked 64)) ["a", "a"]).lookup?
      (.checked 64) 1 2 = some cell? :=
    Option.ne_none_iff_exists'.mp fun hnone => absurd ((hstops 1 2).mp hnone).2.2.2 (by decide)
  have hcontains : (ofTokens (g.toCnf (.checked 64)) ["a", "a"]).contains? (.checked 64) ⟨"S"⟩ 1 2 =
      some true := by
    decide +kernel
  obtain ⟨answer, hanswer, hderives⟩ := (hcells 1 2 cell? hcell).2 ⟨"S"⟩
  obtain rfl : true = answer := Option.some.inj (hcontains.symm.trans hanswer)
  exact ⟨_, hcnf, (hstops _ _).mpr ⟨trivial, by decide, by decide, by decide⟩, hcontains,
    (hderives.mp rfl).2⟩

end Chart

end ContextFree
