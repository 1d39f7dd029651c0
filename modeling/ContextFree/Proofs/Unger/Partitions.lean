import Mathlib.Data.Nat.PSub
import ContextFree.Proofs.Unger.Span

/-!
# All partitions, in order

The partitions of a span are all rows of spans that follow each other from its start to its stop
(`Span.tiles_iff`), and finding them never takes a number from a smaller one
(`Span.partitions?_eq_some`). They are listed once each, ordered by the lengths of their parts
(`Span.partitions_spec`).
-/

namespace ContextFree

theorem flatMapM_eq_some_flatMap {α β : Type} {l : List α} {f : α → Option (List β)}
    {g : α → List β} (h : ∀ a ∈ l, f a = some (g a)) : l.flatMapM f = some (l.flatMap g) := by
  induction l with
  | nil => rfl
  | cons a l ih =>
    obtain ⟨ha, hl⟩ := List.forall_mem_cons.mp h
    rw [List.flatMapM_cons, ha, ih hl]
    rfl

namespace Span

variable {span part : Span} {parts : List Span} {emptyParts : EmptyParts} {count length : Nat}

/-! ## Rows of spans -/

/-- The parts follow each other from the start of the span to its stop. -/
structure Consecutive (span : Span) (parts : List Span) : Prop where
  start : parts.head?.map Span.start = some span.start
  stop : parts.getLast?.map Span.stop = some span.stop
  abut : parts.IsChain fun part next => part.stop = next.start
  start_le_stop : ∀ part ∈ parts, part.start ≤ part.stop

theorem consecutive_singleton : Consecutive span [part] ↔ Tiles span [part] := by
  constructor
  · intro h
    have hle := h.start_le_stop part (List.mem_singleton_self part)
    have hstart := Option.some.inj h.start
    have hstop := Option.some.inj h.stop
    exact ⟨hstart, hle, hstop⟩
  · intro h
    obtain ⟨hstart, hle, hstop⟩ := h
    exact ⟨congrArg some hstart, congrArg some hstop, .singleton part,
      List.forall_mem_singleton.mpr hle⟩

theorem consecutive_cons_cons {next : Span} : Consecutive span (part :: next :: parts) ↔
    part.start = span.start ∧ part.start ≤ part.stop ∧
      Consecutive ⟨part.stop, span.stop⟩ (next :: parts) := by
  constructor
  · intro h
    obtain ⟨hpart, hparts⟩ := List.forall_mem_cons.mp h.start_le_stop
    obtain ⟨hnext, habut⟩ := List.isChain_cons_cons.mp h.abut
    have hstop := h.stop
    rw [List.getLast?_cons_cons] at hstop
    exact ⟨Option.some.inj h.start, hpart, congrArg some hnext.symm, hstop, habut, hparts⟩
  · intro h
    obtain ⟨hstart, hpart, hrest⟩ := h
    refine ⟨congrArg some hstart, ?_, ?_, List.forall_mem_cons.mpr ⟨hpart, hrest.start_le_stop⟩⟩
    · rw [List.getLast?_cons_cons]
      exact hrest.stop
    · exact List.isChain_cons_cons.mpr ⟨(Option.some.inj hrest.start).symm, hrest.abut⟩

theorem tiles_iff (hne : parts ≠ []) : Tiles span parts ↔ Consecutive span parts := by
  induction parts generalizing span with
  | nil => exact absurd rfl hne
  | cons part parts ih =>
    cases parts with
    | nil => exact consecutive_singleton.symm
    | cons next parts =>
      rw [Tiles, consecutive_cons_cons, ih (List.cons_ne_nil next parts)]

theorem Tiles.bounds (h : Tiles span parts) :
    ∀ part ∈ parts, span.start ≤ part.start ∧ part.stop ≤ span.stop := by
  induction parts generalizing span with
  | nil => simp
  | cons part parts ih =>
    obtain ⟨hstart, hle, hrest⟩ := h
    refine List.forall_mem_cons.mpr ⟨⟨Nat.le_of_eq hstart.symm, hrest.le⟩, fun other hother => ?_⟩
    obtain ⟨hother, hstop⟩ := ih hrest other hother
    simp only at hother
    exact ⟨by omega, hstop⟩

/-! ## Checked subtraction -/

/-- The length of a span, unless it stops before it starts. -/
def length? (span : Span) : Option Nat :=
  span.stop.psub span.start

/-- The lengths that the first part may have, unless more tokens are to be left for the other parts
than there are. -/
def firstLengths? (emptyParts : EmptyParts) (length count : Nat) : Option (List Nat) :=
  match emptyParts with
  | .allowed => some (List.range (length + 1))
  | .forbidden =>
    if count ≤ length then (length.psub count).map fun spare => List.range' 1 (spare + 1)
    else some []

/-- The partitions of a span, unless a number is taken from a smaller one. -/
def partitions? (emptyParts : EmptyParts) : (count : Nat) → Span → Option (List (List Span))
  | 0, _ => some []
  | 1, span => some [[span]]
  | count + 2, span => do
    let length ← span.length?
    let lengths ← firstLengths? emptyParts length (count + 2)
    lengths.flatMapM fun length => do
      let rests ← partitions? emptyParts (count + 1) ⟨span.start + length, span.stop⟩
      return rests.map (⟨span.start, span.start + length⟩ :: ·)

theorem length?_eq_some (h : span.start ≤ span.stop) : span.length? = some span.length :=
  Nat.psub_eq_sub h

theorem firstLengths?_eq_some :
    firstLengths? emptyParts length count = some (firstLengths emptyParts length count) := by
  cases emptyParts with
  | allowed => rfl
  | forbidden =>
    rw [firstLengths?, firstLengths]
    split
    · next h => rw [Nat.psub_eq_sub h, Option.map_some]
    · rfl

/-- The first part is no longer than the span, so the others start before it stops. -/
theorem partitions?_eq_some (h : span.start ≤ span.stop) :
    partitions? emptyParts count span = some (partitions emptyParts count span) := by
  induction count generalizing span with
  | zero => rfl
  | succ count ih =>
    cases count with
    | zero => rfl
    | succ count =>
      simp only [partitions?, length?_eq_some h, firstLengths?_eq_some, Option.bind_eq_bind,
        Option.bind_some]
      apply flatMapM_eq_some_flatMap
      intro first hfirst
      have hle : first ≤ span.stop - span.start := ((mem_firstLengths (by omega)).mp hfirst).1
      rw [ih (by simp only; omega), Option.bind_some]
      rfl

/-! ## The list of partitions -/

/-- A partition is a row of so many spans that follow each other; if there are several, each has a
token unless empty parts are allowed. All partitions are listed, each of them once, in the
lexicographic order of the lengths of their parts. Each part is within the span, and no number is
ever taken from a smaller one. -/
theorem partitions_spec (emptyParts : EmptyParts) (hcount : 1 ≤ count)
    (hspan : span.start ≤ span.stop) :
    (∀ parts, parts ∈ partitions emptyParts count span ↔
      parts.length = count ∧ Consecutive span parts ∧
        (emptyParts = .forbidden → 2 ≤ count → ∀ part ∈ parts, part.start < part.stop)) ∧
    (partitions emptyParts count span).Nodup ∧
    ((partitions emptyParts count span).Pairwise fun parts parts' =>
      parts.map Span.length < parts'.map Span.length) ∧
    partitions? emptyParts count span = some (partitions emptyParts count span) ∧
    ∀ parts ∈ partitions emptyParts count span, ∀ part ∈ parts,
      span.start ≤ part.start ∧ part.stop ≤ span.stop := by
  refine ⟨fun parts => ?_, nodup_partitions, pairwise_partitions, partitions?_eq_some hspan,
    fun parts hparts => ((mem_partitions hspan).mp hparts).2.2.1.bounds⟩
  rw [mem_partitions hspan]
  constructor
  · intro h
    obtain ⟨hne, rfl, htiles, hadmits⟩ := h
    exact ⟨rfl, (tiles_iff hne).mp htiles, hadmits⟩
  · intro h
    obtain ⟨rfl, hconsecutive, hadmits⟩ := h
    have hne : parts ≠ [] := List.ne_nil_of_length_pos hcount
    exact ⟨hne, rfl, (tiles_iff hne).mpr hconsecutive, hadmits⟩

/-- Three parts of four tokens. -/
theorem partitions_spec_three :
    let span : Span := ⟨2, 6⟩
    1 ≤ 3 ∧ span.start ≤ span.stop ∧
      partitions? .forbidden 3 span = some [[⟨2, 3⟩, ⟨3, 4⟩, ⟨4, 6⟩], [⟨2, 3⟩, ⟨3, 5⟩, ⟨5, 6⟩],
        [⟨2, 4⟩, ⟨4, 5⟩, ⟨5, 6⟩]] ∧
      [⟨2, 2⟩, ⟨2, 6⟩, ⟨6, 6⟩] ∈ partitions .allowed 3 span := by
  intro span
  have hthree : 1 ≤ 3 := by decide
  have hspan : span.start ≤ span.stop := by decide
  obtain ⟨-, -, -, hforbidden, -⟩ := partitions_spec .forbidden hthree hspan
  obtain ⟨hallowed, -⟩ := partitions_spec .allowed hthree hspan
  refine ⟨hthree, hspan, hforbidden, (hallowed _).mpr ⟨rfl, ?_, by simp⟩⟩
  exact ⟨rfl, rfl, by decide, by decide⟩

end Span

end ContextFree
