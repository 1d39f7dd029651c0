import Mathlib.Data.List.Nodup
import ContextFree.Unger.Search

/-!
# Partitions are tilings

The parts of a partition lie side by side and make up the span. Every way to do that with a given
number of parts is found, and found once; if empty parts are forbidden, then every way without them,
except that a single part may always be empty. The order is that of the lengths of the parts.
-/

namespace ContextFree

/-- Lists drawn from distinct elements are put together without repetition if no element of one list
belongs to another. -/
theorem nodup_flatMap_of_injective {α β : Type} {l : List α} {f : α → List β} (hl : l.Nodup)
    (hf : ∀ a ∈ l, (f a).Nodup) (hinj : ∀ a ∈ l, ∀ a' ∈ l, ∀ b ∈ f a, b ∈ f a' → a = a') :
    (l.flatMap f).Nodup := by
  refine List.nodup_flatMap.mpr ⟨hf, hl.pairwise_of_forall_ne fun a ha a' ha' hne => ?_⟩
  exact fun b hb hb' => hne (hinj a ha a' ha' b hb hb')

theorem flatMap_filter {α β : Type} {l : List α} {p : α → Bool} {f : α → List β} :
    (l.filter p).flatMap f = l.flatMap fun a => if p a then f a else [] := by
  induction l with
  | nil => rfl
  | cons a l ih => by_cases h : p a <;> simp [h, ih]

namespace Span

variable {input : List Token} {span part : Span} {parts : List Span} {emptyParts : EmptyParts}
  {count length : Nat}

/-! ## Slices of the input -/

/-- The span starts and stops within the input. -/
structure Within (input : List Token) (span : Span) : Prop where
  le : span.start ≤ span.stop
  le_length : span.stop ≤ input.length

/-- The tokens that a span covers. -/
def slice (input : List Token) (span : Span) : List Token :=
  (input.drop span.start).take span.length

theorem Within.length_slice (h : span.Within input) :
    (span.slice input).length = span.stop - span.start := by
  have hstop := h.le_length
  simp only [slice, length, List.length_take, List.length_drop]
  omega

theorem slice_whole : slice input ⟨0, input.length⟩ = input := by
  simp [slice, length]

theorem slice_append (input : List Token) {start middle stop : Nat} (h : start ≤ middle)
    (h' : middle ≤ stop) :
    slice input ⟨start, middle⟩ ++ slice input ⟨middle, stop⟩ = slice input ⟨start, stop⟩ := by
  have hlength : stop - start = (middle - start) + (stop - middle) := by omega
  have hmiddle : start + (middle - start) = middle := by omega
  simp only [slice, length]
  rw [hlength, List.take_add, List.drop_drop, hmiddle]

theorem Within.slice_eq_nil_iff (h : span.Within input) :
    span.slice input = [] ↔ span.start = span.stop := by
  have hle := h.le
  rw [← List.length_eq_zero_iff, h.length_slice]
  omega

theorem Within.slice_eq_singleton_iff (h : span.Within input) {token : Token} :
    span.slice input = [token] ↔
      span.stop = span.start + 1 ∧ input[span.start]? = some token := by
  have hlength := h.length_slice
  constructor
  · intro heq
    rw [heq, List.length_singleton] at hlength
    have hget : (span.slice input)[0]? = some token := by rw [heq]; rfl
    rw [slice, List.getElem?_take_of_lt (by simp only [length]; omega), List.getElem?_drop] at hget
    exact ⟨by omega, hget⟩
  · intro h'
    obtain ⟨hstop, hget⟩ := h'
    obtain ⟨hlt, rfl⟩ := List.getElem?_eq_some_iff.mp hget
    have hone : span.length = 1 := by simp only [length]; omega
    rw [slice, hone, List.drop_eq_getElem_cons hlt]
    rfl

/-! ## Tilings -/

/-- The parts lie side by side and make up the span. -/
def Tiles : Span → List Span → Prop
  | span, [] => span.start = span.stop
  | span, part :: parts =>
    part.start = span.start ∧ part.start ≤ part.stop ∧ Tiles ⟨part.stop, span.stop⟩ parts

theorem Tiles.le (h : Tiles span parts) : span.start ≤ span.stop := by
  induction parts generalizing span with
  | nil => exact Nat.le_of_eq h
  | cons part parts ih =>
    obtain ⟨hstart, hle, h⟩ := h
    have := ih h
    simp only at this
    omega

theorem Tiles.within (h : Tiles span parts) (hspan : span.Within input) :
    ∀ part ∈ parts, part.Within input := by
  induction parts generalizing span with
  | nil => simp
  | cons part parts ih =>
    obtain ⟨-, hle, h⟩ := h
    have hstop := h.le
    have hlength := hspan.le_length
    exact List.forall_mem_cons.mpr ⟨⟨hle, Nat.le_trans hstop hlength⟩, ih h ⟨hstop, hlength⟩⟩

/-- With a token for each part, there are no more parts than tokens. -/
theorem Tiles.length_le (h : Tiles span parts) (hpos : ∀ part ∈ parts, part.start < part.stop) :
    parts.length ≤ span.length := by
  induction parts generalizing span with
  | nil => exact Nat.zero_le _
  | cons part parts ih =>
    obtain ⟨hstart, hle, h⟩ := h
    obtain ⟨hpart, hparts⟩ := List.forall_mem_cons.mp hpos
    have hrest := ih h hparts
    have hstop := h.le
    simp only [length, List.length_cons] at *
    omega

theorem tiles_singleton : Tiles span [part] ↔ part = span ∧ span.start ≤ span.stop := by
  obtain ⟨start, stop⟩ := span
  obtain ⟨start', stop'⟩ := part
  simp only [Tiles, Span.mk.injEq]
  omega

/-! ## Partitions -/

/-- Unless empty parts are allowed, each of several parts has a token. -/
def Admits (emptyParts : EmptyParts) (parts : List Span) : Prop :=
  emptyParts = .forbidden → 2 ≤ parts.length → ∀ part ∈ parts, part.start < part.stop

/-- The first part must leave a token for each of the others. This is what a single last part is
checked by, which may be empty when it is the only one. -/
theorem admits_cons {rest : List Span} (hrest : Tiles ⟨part.stop, span.stop⟩ rest)
    (hne : rest ≠ []) : Admits emptyParts (part :: rest) ↔
      (emptyParts = .forbidden → part.start < part.stop ∧ rest.length ≤ span.stop - part.stop) ∧
        Admits emptyParts rest := by
  have htwo : 2 ≤ (part :: rest).length := by
    have := List.length_pos_of_ne_nil hne
    simp only [List.length_cons]
    omega
  constructor
  · intro h
    refine ⟨fun hempty => ?_, fun hempty _ => (List.forall_mem_cons.mp (h hempty htwo)).2⟩
    obtain ⟨hpart, hparts⟩ := List.forall_mem_cons.mp (h hempty htwo)
    exact ⟨hpart, hrest.length_le hparts⟩
  · rintro ⟨hfirst, hadmits⟩ hempty -
    obtain ⟨hpart, hroom⟩ := hfirst hempty
    refine List.forall_mem_cons.mpr ⟨hpart, ?_⟩
    match rest, hne with
    | [last], _ =>
      obtain ⟨rfl, -⟩ := tiles_singleton.mp hrest
      simp only [List.length_singleton] at hroom
      simp only [List.mem_singleton, forall_eq]
      omega
    | _ :: _ :: _, _ => exact hadmits hempty (by simp)

theorem mem_firstLengths {first total : Nat} (hcount : 0 < count) :
    first ∈ firstLengths emptyParts total count ↔
      first ≤ total ∧ (emptyParts = .forbidden → 1 ≤ first ∧ first + count ≤ total + 1) := by
  cases emptyParts with
  | allowed =>
    rw [firstLengths, List.mem_range, Nat.lt_succ_iff]
    simp
  | forbidden =>
    simp only [firstLengths, true_imp_iff]
    split
    · rw [List.mem_range'_1]
      omega
    · simp only [List.not_mem_nil, false_iff]
      omega

theorem mem_partitions_add_two : parts ∈ partitions emptyParts (count + 2) span ↔
    ∃ first ∈ firstLengths emptyParts span.length (count + 2),
      ∃ rest ∈ partitions emptyParts (count + 1) ⟨span.start + first, span.stop⟩,
        parts = ⟨span.start, span.start + first⟩ :: rest := by
  simp [partitions, eq_comm]

theorem length_of_mem_partitions (h : parts ∈ partitions emptyParts count span) :
    parts.length = count := by
  induction count generalizing span parts with
  | zero => simp [partitions] at h
  | succ count ih =>
    cases count with
    | zero =>
      rw [List.mem_singleton.mp h]
      rfl
    | succ count =>
      obtain ⟨first, -, rest, hrest, rfl⟩ := mem_partitions_add_two.mp h
      rw [List.length_cons, ih hrest]

theorem mem_partitions (hspan : span.start ≤ span.stop) :
    parts ∈ partitions emptyParts count span ↔
      parts ≠ [] ∧ parts.length = count ∧ Tiles span parts ∧ Admits emptyParts parts := by
  induction count generalizing span parts with
  | zero =>
    rw [partitions, List.length_eq_zero_iff]
    simp +contextual
  | succ count ih =>
    cases count with
    | zero =>
      rw [partitions, List.mem_singleton]
      constructor
      · rintro rfl
        exact ⟨by simp, rfl, tiles_singleton.mpr ⟨rfl, hspan⟩, by simp [Admits]⟩
      · intro h
        obtain ⟨-, hlength, htiles, -⟩ := h
        obtain ⟨part, rfl⟩ := List.length_eq_one_iff.mp hlength
        rw [(tiles_singleton.mp htiles).1]
    | succ count =>
      rw [mem_partitions_add_two]
      constructor
      · intro h
        obtain ⟨first, hfirst, rest, hrest, rfl⟩ := h
        obtain ⟨hle, hforbidden⟩ := (mem_firstLengths (by omega)).mp hfirst
        simp only [length] at hle hforbidden
        obtain ⟨hne, hlength, htiles, hadmits⟩ := (ih (by simp only; omega)).mp hrest
        refine ⟨by simp, by simp [hlength], ⟨rfl, Nat.le_add_right _ _, htiles⟩, ?_⟩
        refine (admits_cons htiles hne).mpr ⟨fun hempty => ?_, hadmits⟩
        have := hforbidden hempty
        simp only
        omega
      · intro h
        obtain ⟨-, hlength, htiles, hadmits⟩ := h
        obtain ⟨part, rest, rfl⟩ := List.exists_cons_of_length_eq_add_one hlength
        obtain ⟨hstart, hle, hrest⟩ := htiles
        have hcount : rest.length = count + 1 := by simpa using hlength
        have hne : rest ≠ [] := List.ne_nil_of_length_pos (by omega)
        obtain ⟨hforbidden, hadmits⟩ := (admits_cons hrest hne).mp hadmits
        have hstop : part.stop ≤ span.stop := hrest.le
        have hfirst : span.start + (part.stop - span.start) = part.stop := by omega
        refine ⟨part.stop - span.start, (mem_firstLengths (by omega)).mpr ⟨?_, fun hempty => ?_⟩,
          rest, ?_, ?_⟩
        · simp only [length]
          omega
        · have := hforbidden hempty
          simp only [length]
          omega
        · rw [hfirst]
          exact (ih hstop).mpr ⟨hne, hcount, hrest, hadmits⟩
        · rw [hfirst, ← hstart]

/-! ## The order of partitions -/

theorem pairwise_firstLengths {total : Nat} :
    (firstLengths emptyParts total count).Pairwise (· < ·) := by
  cases emptyParts with
  | allowed => exact List.pairwise_lt_range
  | forbidden =>
    rw [firstLengths]
    split
    · exact List.pairwise_lt_range' 1
    · exact .nil

/-- Partitions are ordered by the length of the first part, then by that of the second, and so
on. -/
theorem pairwise_partitions : (partitions emptyParts count span).Pairwise fun parts parts' =>
    parts.map Span.length < parts'.map Span.length := by
  induction count generalizing span with
  | zero => exact .nil
  | succ count ih =>
    cases count with
    | zero => exact List.pairwise_singleton _ _
    | succ count =>
      have hlength (first : Nat) : Span.length ⟨span.start, span.start + first⟩ = first :=
        Nat.add_sub_cancel_left _ _
      rw [partitions]
      refine List.pairwise_flatMap.mpr ⟨fun first _ => ?_, pairwise_firstLengths.imp ?_⟩
      · refine List.pairwise_map.mpr (ih.imp fun h => ?_)
        exact List.cons_lt_cons_iff.mpr (.inr ⟨rfl, h⟩)
      · intro first first' hlt parts hparts parts' hparts'
        obtain ⟨rest, -, rfl⟩ := List.mem_map.mp hparts
        obtain ⟨rest', -, rfl⟩ := List.mem_map.mp hparts'
        refine List.cons_lt_cons_iff.mpr (.inl ?_)
        rwa [hlength, hlength]

theorem nodup_partitions : (partitions emptyParts count span).Nodup := by
  refine pairwise_partitions.imp fun {parts parts'} h => ?_
  rintro rfl
  exact List.lt_irrefl _ h

instance : Decidable (Admits emptyParts parts) :=
  inferInstanceAs (Decidable (_ → _ → ∀ part ∈ parts, part.start < part.stop))

/-- Forbidding empty parts leaves the order of the other partitions as it is. -/
theorem partitions_forbidden (hspan : span.start ≤ span.stop) : partitions .forbidden count span =
    (partitions .allowed count span).filter fun parts => Admits .forbidden parts := by
  have hmem (parts : List Span) : parts ∈ partitions .forbidden count span ↔
      parts ∈ (partitions .allowed count span).filter fun parts => Admits .forbidden parts := by
    rw [List.mem_filter, mem_partitions hspan, mem_partitions hspan, decide_eq_true_eq]
    simp [Admits, and_assoc]
  refine List.Perm.eq_of_pairwise (fun parts parts' _ _ h h' => ?_) pairwise_partitions
    (pairwise_partitions.filter _)
    ((List.perm_ext_iff_of_nodup nodup_partitions (nodup_partitions.filter _)).mpr hmem)
  exact absurd h' (List.lt_asymm h)

example : partitions .allowed 2 ⟨3, 4⟩ = [[⟨3, 3⟩, ⟨3, 4⟩], [⟨3, 4⟩, ⟨4, 4⟩]] := by decide

end Span

end ContextFree
