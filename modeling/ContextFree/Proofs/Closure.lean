import ContextFree.Closure

/-!
# What a closure contains

The rounds of a closure end with a step that finds nothing new. Whatever the rounds keep therefore
holds of a set that the last step does not leave. Two consequences are drawn from this: a closure is
closed under its step, whether the step looks at all that is known or only at the frontier, and it
is contained in every property that the seed has and that the step hands on.
-/

namespace ContextFree

namespace Step

variable {α : Type} [DecidableEq α] {step : Step α} {known frontier seed : List α}

/-- Induction along the rounds of a closure, from the last one back. -/
@[elab_as_elim]
theorem rounds_induction (step : Step α) {motive : List α → List α → Prop}
    (last : ∀ known frontier, step.found known frontier = [] → motive known frontier)
    (more : ∀ known frontier, step.found known frontier ≠ [] →
      motive (known ++ step.found known frontier) (step.found known frontier) →
      motive known frontier) (known frontier : List α) : motive known frontier :=
  rounds.induct step motive last more known frontier

/-- Everything that is known after the rounds from `known` and `frontier` on. -/
def reached (step : Step α) (known frontier : List α) : List α :=
  known ++ (step.rounds known frontier).flatMap Round.found

theorem reached_of_found_eq_nil (h : step.found known frontier = []) :
    step.reached known frontier = known := by
  rw [reached, rounds, if_pos h]
  simp

theorem reached_of_found_ne_nil (h : step.found known frontier ≠ []) :
    step.reached known frontier =
      step.reached (known ++ step.found known frontier) (step.found known frontier) := by
  simp only [reached]
  rw [rounds, if_neg h, List.flatMap_cons, List.append_assoc]

theorem next_subset_of_found_eq_nil (h : step.found known frontier = []) :
    step.next known frontier ⊆ known := by
  intro a ha
  refine Decidable.byContradiction fun hnot => ?_
  have : a ∈ step.found known frontier := mem_found.mpr ⟨ha, hnot⟩
  simp [h] at this

theorem exists_last_round {P : List α → List α → Prop} (start : P known frontier)
    (keep : ∀ known frontier, P known frontier →
      P (known ++ step.found known frontier) (step.found known frontier)) :
    ∃ last, P (step.reached known frontier) last ∧
      step.next (step.reached known frontier) last ⊆ step.reached known frontier := by
  induction known, frontier using step.rounds_induction with
  | last known frontier h =>
    rw [reached_of_found_eq_nil h]
    exact ⟨frontier, start, next_subset_of_found_eq_nil h⟩
  | more known frontier h ih =>
    rw [reached_of_found_ne_nil h]
    exact ih (keep known frontier start)

/-- What every round keeps holds of the closure and its last frontier, for which the step has
nothing to add. -/
theorem exists_last_frontier (step : Step α) {P : List α → List α → Prop}
    (start : P seed.eraseDups seed.eraseDups)
    (keep : ∀ known frontier, P known frontier →
      P (known ++ step.found known frontier) (step.found known frontier)) :
    ∃ last, P (step.closure seed) last ∧ step.next (step.closure seed) last ⊆ step.closure seed :=
  exists_last_round start keep

theorem subset_closure : seed ⊆ step.closure seed :=
  fun _ ha => List.mem_append_left _ (List.mem_eraseDups.mpr ha)

/-- A property of the seed that the step hands on from known elements to candidates holds of the
whole closure. -/
theorem closure_induction (step : Step α) {p : α → Prop} (start : ∀ a ∈ seed, p a)
    (hand : ∀ known frontier, frontier ⊆ known → (∀ a ∈ known, p a) →
      ∀ a ∈ step.next known frontier, p a) :
    ∀ a ∈ step.closure seed, p a := by
  refine (step.exists_last_frontier (P := fun known frontier => frontier ⊆ known ∧ ∀ a ∈ known, p a)
    ⟨fun _ h => h, fun a ha => start a (List.mem_eraseDups.mp ha)⟩ ?_).elim fun _ h => h.1.2
  intro known frontier h
  obtain ⟨hsub, hp⟩ := h
  refine ⟨List.subset_append_right _ _, fun a ha => ?_⟩
  rcases List.mem_append.mp ha with ha | ha
  · exact hp a ha
  · exact hand known frontier hsub hp a (mem_found.mp ha).1

/-- A step that does not look at the frontier leads nowhere from the closure. -/
theorem next_closure_subset (step : Step α)
    (h : ∀ known frontier frontier', step.next known frontier = step.next known frontier')
    (frontier : List α) : step.next (step.closure seed) frontier ⊆ step.closure seed := by
  obtain ⟨last, -, hlast⟩ :
      ∃ last, True ∧ step.next (step.closure seed) last ⊆ step.closure seed :=
    step.exists_last_frontier (P := fun _ _ => True) trivial fun _ _ _ => trivial
  rw [h _ frontier last]
  exact hlast

/-- A step that goes on from each element of the frontier by itself leads nowhere from the closure,
although each element has been on the frontier only once. -/
theorem mem_closure_of_successor (step : Step α) {r : α → α → Prop}
    (h : ∀ known frontier b, b ∈ step.next known frontier ↔ ∃ a ∈ frontier, r a b) {a b : α}
    (ha : a ∈ step.closure seed) (hab : r a b) : b ∈ step.closure seed := by
  -- The successors of all that is not on the frontier are known already.
  have keep : ∀ known frontier, (∀ a ∈ known, a ∈ frontier ∨ ∀ b, r a b → b ∈ known) →
      ∀ a ∈ known ++ step.found known frontier, a ∈ step.found known frontier ∨
        ∀ b, r a b → b ∈ known ++ step.found known frontier := by
    intro known frontier hP a ha
    rcases List.mem_append.mp ha with ha | ha
    · refine .inr fun b hab => ?_
      by_cases hbk : b ∈ known
      · exact List.mem_append_left _ hbk
      rcases hP a ha with hf | hs
      · exact List.mem_append_right _ (mem_found.mpr ⟨(h _ _ b).mpr ⟨a, hf, hab⟩, hbk⟩)
      · exact absurd (hs b hab) hbk
    · exact .inl ha
  obtain ⟨last, hsettled, hlast⟩ := step.exists_last_frontier
    (P := fun known frontier => ∀ a ∈ known, a ∈ frontier ∨ ∀ b, r a b → b ∈ known)
    (fun _ ha => .inl ha) keep
  rcases hsettled a ha with hf | hs
  · exact hlast ((h _ _ b).mpr ⟨a, hf, hab⟩)
  · exact hs b hab

theorem successors_subset_closure (step : Step α) {f : α → List α}
    (h : ∀ known frontier, step.next known frontier = frontier.flatMap f) {a : α}
    (ha : a ∈ step.closure seed) : f a ⊆ step.closure seed :=
  fun _ hb => step.mem_closure_of_successor (r := fun a b => b ∈ f a)
    (fun known frontier _ => by rw [h known frontier, List.mem_flatMap]) ha hb

end Step

end ContextFree
