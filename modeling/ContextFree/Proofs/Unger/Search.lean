import ContextFree.Proofs.Unger.Span
import ContextFree.Unger.Search

/-!
# The search always ends

There are finitely many attempts on an input, and one that is under way is not made again. So the
search is never nested more deeply than provided for. It returns what `Unger.fits` says without any
state, and leaves the attempts under way as they were.
-/

namespace ContextFree

namespace Unger

variable {g : Grammar} {emptyParts : EmptyParts} {input : List Token} {active : List Attempt}
  {attempt : Attempt} {depth : Nat}

/-! ## The search without a state -/

/-- The trees for an item on a part, when `derive` has those for nonterminals. -/
def options (derive : Nonterminal → Span → List Tree) (item : Expr) (part : Span) : List Tree :=
  match item with
  | .terminal token => [.leaf token]
  | .empty => [.epsilon]
  | .nonterminal symbol => derive symbol part
  | .seq _ | .alt _ => []

/-- All lists of children, one for each item on its part. -/
def combinations (derive : Nonterminal → Span → List Tree) :
    List (Expr × Span) → List (List Tree)
  | [] => [[]]
  | (item, part) :: rest =>
    (options derive item part).flatMap fun tree => (combinations derive rest).map (tree :: ·)

/-- The trees that apply a rule to a span while other attempts are under way. -/
def fits (g : Grammar) (emptyParts : EmptyParts) (input : List Token) :
    (depth : Nat) → (active : List Attempt) → Attempt → List Tree
  | 0, _, _ => []
  | depth + 1, active, attempt =>
    if attempt ∈ active then []
    else
      let derive (symbol : Nonterminal) (part : Span) : List Tree :=
        (g.rulesFor symbol).flatMap fun rule =>
          fits g emptyParts input depth (attempt :: active) ⟨part, rule⟩
      ((candidates g emptyParts input attempt).flatMap (combinations derive)).map
        (.node attempt.rule.lhs)

/-- The trees for a nonterminal on a part while some attempts are under way. -/
def found (g : Grammar) (emptyParts : EmptyParts) (input : List Token) (depth : Nat)
    (active : List Attempt) (symbol : Nonterminal) (part : Span) : List Tree :=
  (g.rulesFor symbol).flatMap fun rule => fits g emptyParts input depth active ⟨part, rule⟩

theorem fits_of_mem (h : attempt ∈ active) : fits g emptyParts input depth active attempt = [] := by
  cases depth with
  | zero => rfl
  | succ depth => rw [fits, if_pos h]

theorem fits_of_notMem (h : attempt ∉ active) :
    fits g emptyParts input (depth + 1) active attempt =
      ((candidates g emptyParts input attempt).flatMap
        (combinations (found g emptyParts input depth (attempt :: active)))).map
          (.node attempt.rule.lhs) := by
  rw [fits, if_neg h]
  rfl

/-! ## Searches that return -/

/-- Given the attempts under way, the search returns the value and leaves them as they were. -/
def Returns {α : Type} (search : Search α) (active : List Attempt) (a : α) : Prop :=
  ∀ cycles, ∃ cycles', search.run ⟨active, cycles⟩ = some (a, ⟨active, cycles'⟩)

section

variable {α β : Type} {search : Search α} {a : α}

theorem Returns.pure : Returns (Pure.pure a) active a :=
  fun cycles => ⟨cycles, rfl⟩

theorem Returns.bind {next : α → Search β} {b : β} (h : Returns search active a)
    (hnext : Returns (next a) active b) : Returns (search >>= next) active b := by
  intro cycles
  obtain ⟨cycles', hrun⟩ := h cycles
  obtain ⟨cycles'', hrun'⟩ := hnext cycles'
  exact ⟨cycles'', by rw [StateT.run_bind, hrun]; exact hrun'⟩

theorem Returns.flatMapM {l : List α} {search : α → Search (List β)} {f : α → List β}
    (h : ∀ a ∈ l, Returns (search a) active (f a)) :
    Returns (l.flatMapM search) active (l.flatMap f) := by
  induction l with
  | nil => exact .pure
  | cons a l ih =>
    obtain ⟨ha, hl⟩ := List.forall_mem_cons.mp h
    rw [List.flatMapM_cons, List.flatMap_cons]
    exact ha.bind ((ih hl).bind .pure)

end

theorem returns_combine {derive : Nonterminal → Span → Search (List Tree)}
    {derive' : Nonterminal → Span → List Tree} {parts : List (Expr × Span)}
    (h : ∀ symbol, ∀ part ∈ parts, Returns (derive symbol part.2) active (derive' symbol part.2)) :
    Returns (combine derive parts) active (combinations derive' parts) := by
  induction parts with
  | nil => exact .pure
  | cons first parts ih =>
    obtain ⟨item, part⟩ := first
    have hfirst (symbol : Nonterminal) :
        Returns (derive symbol part) active (derive' symbol part) :=
      h symbol _ List.mem_cons_self
    have hrest := ih fun symbol part hp => h symbol part (List.mem_cons_of_mem _ hp)
    have hnext (trees : List Tree) : Returns (if trees.isEmpty then Pure.pure [] else do
          let tails ← combine derive parts
          Pure.pure (trees.flatMap fun tree => tails.map (tree :: ·))) active
        (trees.flatMap fun tree => (combinations derive' parts).map (tree :: ·)) := by
      split
      · next hempty =>
        rw [List.isEmpty_iff.mp hempty]
        exact .pure
      · exact hrest.bind .pure
    cases item with
    | nonterminal symbol => exact (hfirst symbol).bind (hnext _)
    | terminal | empty | seq | alt => exact Returns.pure.bind (hnext _)

/-! ## Enough depth -/

/-- All attempts on an input. -/
def attempts (g : Grammar) (input : List Token) : List Attempt :=
  g.rules.flatMap fun rule => (List.range (input.length + 1)).flatMap fun start =>
    (List.range (input.length + 1)).map fun stop => ⟨⟨start, stop⟩, rule⟩

theorem length_attempts :
    (attempts g input).length = g.rules.length * ((input.length + 1) * (input.length + 1)) := by
  simp [attempts, List.length_flatMap, List.map_const']

theorem mem_attempts (hr : attempt.rule ∈ g.rules) (hspan : attempt.span.Within input) :
    attempt ∈ attempts g input := by
  obtain ⟨hle, hlength⟩ := hspan
  apply List.mem_flatMap.mpr
  refine ⟨attempt.rule, hr, ?_⟩
  apply List.mem_flatMap.mpr
  refine ⟨attempt.span.start, List.mem_range.mpr (by omega), ?_⟩
  exact List.mem_map.mpr ⟨attempt.span.stop, List.mem_range.mpr (by omega), rfl⟩

/-- The depth is enough for all attempts that are not under way. -/
def Room (g : Grammar) (input : List Token) (depth : Nat) (active : List Attempt) : Prop :=
  ((attempts g input).filter (· ∉ active)).length < depth

theorem room_of_maxDepth_le (h : maxDepth g input ≤ depth) : Room g input depth active := by
  refine Nat.lt_of_le_of_lt (List.length_filter_le _ _) ?_
  rw [length_attempts]
  exact Nat.lt_of_succ_le h

theorem room_maxDepth : Room g input (maxDepth g input) active :=
  room_of_maxDepth_le (Nat.le_refl _)

theorem not_room_zero : ¬Room g input 0 active :=
  Nat.not_lt_zero _

/-- There is one attempt fewer when it is under way as well. -/
theorem Room.enter (h : Room g input (depth + 1) active) (hnot : attempt ∉ active)
    (hmem : attempt ∈ attempts g input) : Room g input depth (attempt :: active) := by
  have hfilter : (attempts g input).filter (· ∉ attempt :: active) =
      ((attempts g input).filter (· ∉ active)).filter (· ≠ attempt) := by
    simp [List.filter_filter]
  refine Nat.lt_of_lt_of_le ?_ (Nat.le_of_lt_succ h)
  rw [hfilter, List.length_filter_lt_length_iff_exists]
  exact ⟨attempt, List.mem_filter.mpr ⟨hmem, by simpa using hnot⟩, by simp⟩

/-! ## Running the search -/

theorem within_of_mem_candidates (hspan : attempt.span.Within input)
    {parts : List (Expr × Span)} (h : parts ∈ candidates g emptyParts input attempt) :
    ∀ part ∈ parts, part.2.Within input := by
  obtain ⟨hparts, -⟩ := List.mem_filter.mp h
  obtain ⟨spans, hspans, rfl⟩ := List.mem_map.mp hparts
  obtain ⟨-, -, htiles, -⟩ := (Span.mem_partitions hspan.le).mp hspans
  exact fun part hpart => htiles.within hspan part.2 (List.of_mem_zip hpart).2

theorem returns_fit (hroom : Room g input depth active) (hr : attempt.rule ∈ g.rules)
    (hspan : attempt.span.Within input) :
    Returns (fit g emptyParts input depth attempt) active
      (fits g emptyParts input depth active attempt) := by
  induction depth generalizing active attempt with
  | zero => exact absurd hroom not_room_zero
  | succ depth ih =>
    intro cycles
    by_cases hactive : attempt ∈ active
    · refine ⟨attempt :: cycles, ?_⟩
      simp [fit, fits_of_mem hactive, hactive, State.giveUp]
    · have hroom := hroom.enter hactive (mem_attempts hr hspan)
      let derive (symbol : Nonterminal) (part : Span) : Search (List Tree) :=
        (g.rulesFor symbol).flatMapM fun rule => fit g emptyParts input depth ⟨part, rule⟩
      have hderive (symbol : Nonterminal) {part : Span} (hpart : part.Within input) :
          Returns (derive symbol part) (attempt :: active)
            (found g emptyParts input depth (attempt :: active) symbol part) :=
        .flatMapM fun rule hrule => ih hroom (Grammar.mem_rulesFor.mp hrule).1 hpart
      have hchildren : Returns ((candidates g emptyParts input attempt).flatMapM (combine derive))
          (attempt :: active) ((candidates g emptyParts input attempt).flatMap
            (combinations (found g emptyParts input depth (attempt :: active)))) :=
        .flatMapM fun parts hparts => returns_combine fun symbol part hpart =>
          hderive symbol (within_of_mem_candidates hspan hparts part hpart)
      obtain ⟨cycles', hrun⟩ := hchildren cycles
      refine ⟨cycles', ?_⟩
      rw [fits_of_notMem hactive]
      simp only [derive] at hrun
      simp [fit, hactive, State.enter, State.leave, hrun]

/-- The search never runs out of depth, and in the end nothing is under way. -/
theorem search_eq (g : Grammar) (emptyParts : EmptyParts) (input : List Token) :
    ∃ cycles, search g emptyParts input = some (g.startRules.flatMap fun rule =>
      fits g emptyParts input (maxDepth g input) [] ⟨⟨0, input.length⟩, rule⟩, ⟨[], cycles⟩) := by
  refine Returns.flatMapM (fun rule hrule => ?_) []
  refine returns_fit room_maxDepth ?_ ⟨Nat.zero_le _, Nat.le_refl _⟩
  rw [Grammar.startRules] at hrule
  cases hstart : g.start? with
  | none => simp [hstart] at hrule
  | some start =>
    rw [hstart] at hrule
    exact (Grammar.mem_rulesFor.mp hrule).1

end Unger

end ContextFree
