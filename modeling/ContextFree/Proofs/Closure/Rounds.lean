import ContextFree.Proofs.Closure
import Mathlib.Data.Finset.Dedup
import Mathlib.Data.Finset.SDiff
import Mathlib.Data.Finset.Card
import Mathlib.Order.Bounds.Defs

/-!
# The rounds of a closure

Every round but the last one finds something, and nothing is found twice, so there is at most one
round more than there are elements to be found. What a round is given is determined by the rounds
before it. A step that looks at all that is known and one that only looks at the frontier lead to
the least set that they do not leave (`Step.closure_spec`).
-/

namespace ContextFree

namespace Step

variable {α : Type} [DecidableEq α] {step : Step α} {known frontier seed : List α}
  {before after : List (Round α)} {round : Round α}

/-! ## One round after the other -/

theorem rounds_of_found_eq_nil (h : step.found known frontier = []) :
    step.rounds known frontier = [⟨known, frontier, []⟩] := by
  rw [rounds, if_pos h]

theorem rounds_of_found_ne_nil (h : step.found known frontier ≠ []) :
    step.rounds known frontier = ⟨known, frontier, step.found known frontier⟩ ::
      step.rounds (known ++ step.found known frontier) (step.found known frontier) := by
  rw [rounds, if_neg h]

theorem rounds_ne_nil : step.rounds known frontier ≠ [] := by
  by_cases h : step.found known frontier = []
  · simp [rounds_of_found_eq_nil h]
  · simp [rounds_of_found_ne_nil h]

theorem nodup_append_found (h : known.Nodup) :
    (known ++ step.found known frontier).Nodup :=
  List.nodup_append'.mpr ⟨h, nodup_eraseDups _, fun _ hk hf => (mem_found.mp hf).2 hk⟩

/-- What a round is given comes from the rounds before it. It finds nothing if it is the last one,
and only then. -/
theorem rounds_eq_append_cons (h : step.rounds known frontier = before ++ round :: after) :
    round.known = known ++ before.flatMap Round.found ∧
    round.frontier = before.getLast?.elim frontier Round.found ∧
    round.found = step.found round.known round.frontier ∧ (round.found = [] ↔ after = []) := by
  induction known, frontier using step.rounds_induction generalizing before with
  | last known frontier hnil =>
    rw [rounds_of_found_eq_nil hnil] at h
    cases before with
    | nil =>
      obtain ⟨rfl, rfl⟩ := List.cons.inj h
      exact ⟨(List.append_nil known).symm, rfl, hnil.symm, iff_of_true rfl rfl⟩
    | cons => simp at h
  | more known frontier hne ih =>
    rw [rounds_of_found_ne_nil hne] at h
    cases before with
    | nil =>
      obtain ⟨rfl, rfl⟩ := List.cons.inj h
      exact ⟨(List.append_nil known).symm, rfl, rfl, iff_of_false hne rounds_ne_nil⟩
    | cons first before =>
      obtain ⟨rfl, hrest⟩ := List.cons.inj h
      obtain ⟨hknown, hfrontier, hfound⟩ := ih hrest
      refine ⟨by simpa using hknown, ?_, hfound⟩
      rw [hfrontier, List.getLast?_cons]
      cases before.getLast? <;> rfl

/-- What is known after any number of rounds is known without repetition. -/
theorem nodup_append_flatMap_found (hnodup : known.Nodup)
    (h : step.rounds known frontier = before ++ after) :
    (known ++ before.flatMap Round.found).Nodup := by
  induction known, frontier using step.rounds_induction generalizing before with
  | last known frontier hnil =>
    rw [rounds_of_found_eq_nil hnil] at h
    rcases List.append_eq_singleton_iff.mp h.symm with ⟨rfl, -⟩ | ⟨rfl, -⟩
    · simpa
    · simpa
  | more known frontier hne ih =>
    rw [rounds_of_found_ne_nil hne] at h
    cases before with
    | nil => simpa
    | cons first before =>
      obtain ⟨rfl, hrest⟩ := List.cons.inj h
      simpa using ih (nodup_append_found hnodup) hrest

theorem nodup_closure (step : Step α) (seed : List α) : (step.closure seed).Nodup :=
  nodup_append_flatMap_found (nodup_eraseDups seed) (List.append_nil (step.roundsFrom seed)).symm

/-! ## The number of rounds -/

theorem length_rounds_le : (step.rounds known frontier).length ≤
    ((step.rounds known frontier).flatMap Round.found).length + 1 := by
  induction known, frontier using step.rounds_induction with
  | last known frontier hnil => simp [rounds_of_found_eq_nil hnil]
  | more known frontier hne ih =>
    have hpos : 0 < (step.found known frontier).length := List.length_pos_iff.mpr hne
    simp only [rounds_of_found_ne_nil hne, List.flatMap_cons, List.length_cons, List.length_append]
    omega

/-- Only candidates are found. -/
theorem mem_of_mem_flatMap_found {U : Finset α}
    (h : ∀ known frontier, ∀ a ∈ step.next known frontier, a ∈ U) {a : α}
    (ha : a ∈ (step.rounds known frontier).flatMap Round.found) : a ∈ U := by
  obtain ⟨round, hround, ha⟩ := List.mem_flatMap.mp ha
  obtain ⟨before, after, hsplit⟩ := List.append_of_mem hround
  obtain ⟨-, -, hfound, -⟩ := rounds_eq_append_cons hsplit
  rw [hfound] at ha
  exact h _ _ a (mem_found.mp ha).1

/-- Each round but the last one uses up something that was not known. -/
theorem length_roundsFrom_le {U : Finset α}
    (h : ∀ known frontier, ∀ a ∈ step.next known frontier, a ∈ U) :
    (step.roundsFrom seed).length ≤ (U \ seed.toFinset).card + 1 := by
  let found := (step.roundsFrom seed).flatMap Round.found
  obtain ⟨-, hnodup, hdisjoint⟩ := List.nodup_append'.mp (step.nodup_closure seed)
  have hsub : found.toFinset ⊆ U \ seed.toFinset := by
    intro a ha
    rw [List.mem_toFinset] at ha
    rw [Finset.mem_sdiff, List.mem_toFinset]
    exact ⟨mem_of_mem_flatMap_found h ha, fun hs => hdisjoint (List.mem_eraseDups.mpr hs) ha⟩
  calc (step.roundsFrom seed).length
    _ ≤ found.length + 1 := length_rounds_le
    _ = found.toFinset.card + 1 := by rw [List.toFinset_card_of_nodup hnodup]
    _ ≤ (U \ seed.toFinset).card + 1 := Nat.succ_le_succ (Finset.card_le_card hsub)

/-! ## The order of discovery -/

/-- All candidates of the step, round by round. -/
def candidates (step : Step α) (rounds : List (Round α)) : List α :=
  rounds.flatMap fun round => step.next round.known round.frontier

theorem eraseDups_append_left (l m : List α) :
    (l.eraseDups ++ m).eraseDups = (l ++ m).eraseDups := by
  rw [← eraseDups_append_eraseDups l.eraseDups, eraseDups_eq_self (nodup_eraseDups l),
    eraseDups_append_eraseDups]

theorem eraseDups_append_next (h : known.Nodup) :
    (known ++ step.next known frontier).eraseDups = known ++ step.found known frontier := by
  rw [List.eraseDups_append, eraseDups_eq_self h, found]
  simp [List.removeAll]

/-- Whatever the rounds find comes in the order in which it became a candidate first. -/
theorem eraseDups_append_candidates (h : known.Nodup) :
    (known ++ step.candidates (step.rounds known frontier)).eraseDups =
      step.reached known frontier := by
  induction known, frontier using step.rounds_induction with
  | last known frontier hnil =>
    rw [rounds_of_found_eq_nil hnil, reached_of_found_eq_nil hnil, candidates,
      List.flatMap_singleton, eraseDups_append_next h, hnil, List.append_nil]
  | more known frontier hne ih =>
    let rest := step.candidates
      (step.rounds (known ++ step.found known frontier) (step.found known frontier))
    have hcandidates : step.candidates (step.rounds known frontier) =
        step.next known frontier ++ rest := by
      rw [rounds_of_found_ne_nil hne]
      rfl
    calc (known ++ step.candidates (step.rounds known frontier)).eraseDups
      _ = (known ++ step.next known frontier ++ rest).eraseDups := by
        rw [hcandidates, List.append_assoc]
      _ = (known ++ step.found known frontier ++ rest).eraseDups := by
        rw [← eraseDups_append_left, eraseDups_append_next h]
      _ = step.reached known frontier := by
        rw [ih (nodup_append_found h), reached_of_found_ne_nil hne]

theorem closure_eq_eraseDups (step : Step α) (seed : List α) :
    step.closure seed = (seed ++ step.candidates (step.roundsFrom seed)).eraseDups := by
  rw [← eraseDups_append_left]
  exact (eraseDups_append_candidates (nodup_eraseDups seed)).symm

/-! ## The least closed set -/

/-- The step looks at what is known alone and leads to more if more is known. -/
def IsMonotone (step : Step α) : Prop :=
  ∀ known known' frontier frontier', known ⊆ known' →
    step.next known frontier ⊆ step.next known' frontier'

/-- The step leads from elements of the set to elements of the set. -/
def IsClosed (step : Step α) (s : Set α) : Prop :=
  ∀ known frontier, (∀ a ∈ known, a ∈ s) → ∀ a ∈ step.next known frontier, a ∈ s

theorem IsMonotone.isLeast_closure (h : step.IsMonotone) :
    IsLeast {s : Set α | (∀ a ∈ seed, a ∈ s) ∧ step.IsClosed s} {a | a ∈ step.closure seed} := by
  refine ⟨⟨fun a ha => subset_closure ha, fun known frontier hknown a ha => ?_⟩,
    fun s hs a ha => ?_⟩
  · obtain ⟨last, -, hlast⟩ : ∃ last, True ∧
        step.next (step.closure seed) last ⊆ step.closure seed :=
      step.exists_last_frontier (P := fun _ _ => True) trivial fun _ _ _ => trivial
    exact hlast (h known _ frontier last hknown ha)
  · refine step.closure_induction hs.1 (fun known frontier _ hknown => ?_) a ha
    exact hs.2 known frontier hknown

/-- The step goes from each element of the frontier by itself. -/
def IsPointwise (step : Step α) (f : α → Set α) : Prop :=
  ∀ known frontier b, b ∈ step.next known frontier ↔ ∃ a ∈ frontier, b ∈ f a

theorem IsPointwise.isLeast_closure {f : α → Set α} (h : step.IsPointwise f) :
    IsLeast {s : Set α | (∀ a ∈ seed, a ∈ s) ∧ ∀ a ∈ s, f a ⊆ s} {a | a ∈ step.closure seed} := by
  refine ⟨⟨fun a ha => subset_closure ha, fun a ha b hb => ?_⟩, fun s hs a ha => ?_⟩
  · exact step.mem_closure_of_successor h ha hb
  · refine step.closure_induction hs.1 (fun known frontier hsub hknown b hb => ?_) a ha
    obtain ⟨a, ha, hb⟩ := (h known frontier b).mp hb
    exact hs.2 a (hknown a (hsub ha)) hb

/-- A closure takes at most one round more than there is to find in the universe of the candidates.
Each round is given all that the seed and the rounds before have, once each, and the findings of the
round before. A step that grows with what is known, and one that goes on from each element of the
frontier, lead to the least set that has the seed and is kept. Its elements are listed in order: the
seed and then the findings of each round, in the order in which they became candidates. -/
theorem closure_spec (step : Step α) (seed : List α) :
    (∀ U : Finset α, (∀ known frontier, ∀ a ∈ step.next known frontier, a ∈ U) →
      (step.roundsFrom seed).length ≤ (U \ seed.toFinset).card + 1) ∧
    (∀ before round after, step.roundsFrom seed = before ++ round :: after →
      round.known = seed.eraseDups ++ before.flatMap Round.found ∧ round.known.Nodup ∧
      round.frontier = before.getLast?.elim seed.eraseDups Round.found ∧
      round.found = ((step.next round.known round.frontier).filter
        fun a => decide (a ∉ round.known)).eraseDups ∧
      (round.found = [] ↔ after = [])) ∧
    (step.IsMonotone → IsLeast {s : Set α | (∀ a ∈ seed, a ∈ s) ∧ step.IsClosed s}
      {a | a ∈ step.closure seed}) ∧
    (∀ f : α → Set α, step.IsPointwise f →
      IsLeast {s : Set α | (∀ a ∈ seed, a ∈ s) ∧ ∀ a ∈ s, f a ⊆ s} {a | a ∈ step.closure seed}) ∧
    step.closure seed = seed.eraseDups ++ (step.roundsFrom seed).flatMap Round.found ∧
    step.closure seed = (seed ++ step.candidates (step.roundsFrom seed)).eraseDups := by
  refine ⟨fun U => length_roundsFrom_le, fun before round after h => ?_, fun h => h.isLeast_closure,
    fun f h => h.isLeast_closure, rfl, step.closure_eq_eraseDups seed⟩
  obtain ⟨hknown, hfrontier, hfound, hlast⟩ := rounds_eq_append_cons h
  refine ⟨hknown, ?_, hfrontier, hfound, hlast⟩
  rw [hknown]
  exact nodup_append_flatMap_found (nodup_eraseDups seed) h

end Step

end ContextFree
