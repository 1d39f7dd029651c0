import ContextFree.Distinct

/-!
# Closures

The least set that contains a seed and is closed under a step is found in rounds: every round asks
the step for candidates and adds those that are new. The step sees what is known so far and the
frontier, which is what the previous round added, so it may look at either.

The candidates of a step come from a finite domain, which is why the rounds end.
-/

namespace ContextFree

/-- A rule of inference on the elements of a finite domain. -/
structure Step (α : Type) where
  /-- The candidates for the next round, given what is known and what was found last. -/
  next : List α → List α → List α
  /-- Every element that can become a candidate. -/
  domain : List α
  next_subset : ∀ known frontier, next known frontier ⊆ domain

/-- One round of a closure: what the step was given and which new elements it led to. -/
structure Round (α : Type) where
  known : List α
  frontier : List α
  found : List α

namespace Step

variable {α : Type} [DecidableEq α]

/-- The candidates of a step that are not known yet, in order and without repetition. -/
def found (step : Step α) (known frontier : List α) : List α :=
  ((step.next known frontier).filter fun a => decide (a ∉ known)).eraseDups

theorem mem_found {step : Step α} {known frontier : List α} {a : α} :
    a ∈ step.found known frontier ↔ a ∈ step.next known frontier ∧ a ∉ known := by
  simp [found]

/-- The elements of the domain that are not known yet. -/
def unknown (step : Step α) (known : List α) : List α :=
  step.domain.filter fun a => decide (a ∉ known)

theorem length_unknown_lt {step : Step α} {known frontier : List α}
    (h : step.found known frontier ≠ []) :
    (step.unknown (known ++ step.found known frontier)).length < (step.unknown known).length := by
  obtain ⟨a, ha⟩ := List.exists_mem_of_ne_nil _ h
  obtain ⟨hnext, hknown⟩ := mem_found.mp ha
  have hsplit : step.unknown (known ++ step.found known frontier) =
      (step.unknown known).filter fun b => decide (b ∉ step.found known frontier) := by
    rw [unknown, unknown, List.filter_filter]
    congr 1
    funext b
    simp [not_or, Bool.and_comm]
  rw [hsplit]
  exact List.length_filter_lt_length_iff_exists.mpr
    ⟨a, List.mem_filter.mpr ⟨step.next_subset known frontier hnext, by simpa using hknown⟩,
      by simpa using ha⟩

/-- All rounds from `known` and `frontier` on. Only the last one finds nothing. -/
def rounds (step : Step α) (known frontier : List α) : List (Round α) :=
  let found := step.found known frontier
  if found = [] then [⟨known, frontier, []⟩]
  else ⟨known, frontier, found⟩ :: step.rounds (known ++ found) found
termination_by (step.unknown known).length
decreasing_by exact length_unknown_lt ‹_›

/-- The rounds of the closure of `seed`, whose first frontier is the whole seed. -/
def roundsFrom (step : Step α) (seed : List α) : List (Round α) :=
  step.rounds seed.eraseDups seed.eraseDups

/-- The closure of `seed`: first the seed and then the findings of all rounds. -/
def closure (step : Step α) (seed : List α) : List α :=
  seed.eraseDups ++ (step.roundsFrom seed).flatMap Round.found

end Step

end ContextFree
