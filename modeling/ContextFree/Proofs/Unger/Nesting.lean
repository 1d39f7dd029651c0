import ContextFree.Proofs.Unger.Search

/-!
# How attempts are nested

A search that keeps a list of the attempts it is nested in, and fails if one of them is made again
without being given up, has the same result as the search itself (`Unger.fit_spec`): whatever is on
the list is under way, as every call leaves the attempts under way as they were. The result does not
depend on the depth either, once this is enough.
-/

namespace ContextFree

namespace Unger

variable {g : Grammar} {emptyParts : EmptyParts} {input : List Token} {active stack : List Attempt}
  {attempt : Attempt} {depth depth' : Nat}

/-! ## One attempt -/

/-- Makes an attempt, unless it is under way, when `call` makes those that are nested in it. -/
def tryOut (g : Grammar) (emptyParts : EmptyParts) (input : List Token)
    (call : Attempt → Search (List Tree)) (attempt : Attempt) : Search (List Tree) := do
  if attempt ∈ (← get).active then
    modify (State.giveUp attempt)
    pure []
  else
    modify (State.enter attempt)
    let derive (symbol : Nonterminal) (part : Span) : Search (List Tree) :=
      (g.rulesFor symbol).flatMapM fun rule => call ⟨part, rule⟩
    let children ← (candidates g emptyParts input attempt).flatMapM (combine derive)
    modify (State.leave attempt)
    pure (children.map (.node attempt.rule.lhs))

theorem fit_succ : fit g emptyParts input (depth + 1) attempt =
    tryOut g emptyParts input (fit g emptyParts input depth) attempt :=
  rfl

theorem run_tryOut_of_mem {call : Attempt → Search (List Tree)} {state : State}
    (h : attempt ∈ state.active) :
    (tryOut g emptyParts input call attempt).run state = some ([], state.giveUp attempt) := by
  simp [tryOut, h]

theorem run_tryOut_of_notMem {call : Attempt → Search (List Tree)} {state : State}
    (h : attempt ∉ state.active) :
    (tryOut g emptyParts input call attempt).run state =
      (((candidates g emptyParts input attempt).flatMapM (combine fun symbol part =>
        (g.rulesFor symbol).flatMapM fun rule => call ⟨part, rule⟩)).run
          (state.enter attempt)).map fun result =>
            (result.1.map (.node attempt.rule.lhs), result.2.leave attempt) := by
  simp only [tryOut, bind_pure_comp, StateT.run_bind, StateT.run_get, h, if_false,
    StateT.run_modify, StateT.run_map, Option.pure_def, Option.bind_eq_bind, Option.bind_some,
    Option.map_eq_map]
  exact Option.map_eq_bind.symm

/-- The search with a list of the attempts that it is nested in. It fails if one of them is made
again and is not given up. -/
def fitOnce (g : Grammar) (emptyParts : EmptyParts) (input : List Token) :
    (depth : Nat) → (stack : List Attempt) → Attempt → Search (List Tree)
  | 0, _, _ => failure
  | depth + 1, stack, attempt => do
    if attempt ∈ stack ∧ attempt ∉ (← get).active then failure
    else tryOut g emptyParts input (fitOnce g emptyParts input depth (attempt :: stack)) attempt

theorem run_fitOnce_succ {state : State} (h : stack ⊆ state.active) :
    (fitOnce g emptyParts input (depth + 1) stack attempt).run state =
      (tryOut g emptyParts input (fitOnce g emptyParts input depth (attempt :: stack))
        attempt).run state := by
  have hnot : ¬(attempt ∈ stack ∧ attempt ∉ state.active) := fun h' => h'.2 (h h'.1)
  simp [fitOnce, hnot]

/-! ## Searches that follow each other -/

/-- Whenever the first search returns with the given attempts under way, so does the second one, in
the same way, and these are the attempts under way in the end. -/
def Follows {α : Type} (active : List Attempt) (search search' : Search α) : Prop :=
  ∀ cycles a state, search.run ⟨active, cycles⟩ = some (a, state) →
    search'.run ⟨active, cycles⟩ = some (a, state) ∧ state.active = active

section

variable {α β : Type} {search search' : Search α} {a : α}

theorem Follows.pure : Follows active (Pure.pure a) (Pure.pure a) := by
  intro cycles b state h
  refine ⟨h, ?_⟩
  obtain ⟨-, rfl⟩ := Prod.mk.inj (Option.some.inj h)
  rfl

theorem Follows.bind {next next' : α → Search β} (h : Follows active search search')
    (hnext : ∀ a, Follows active (next a) (next' a)) :
    Follows active (search >>= next) (search' >>= next') := by
  intro cycles b state hrun
  rw [StateT.run_bind] at hrun ⊢
  obtain ⟨⟨a, ⟨active', cycles'⟩⟩, hfirst, hrest⟩ := Option.bind_eq_some_iff.mp hrun
  obtain ⟨hfirst', rfl⟩ := h _ _ _ hfirst
  obtain ⟨hrest', hactive⟩ := hnext a _ _ _ hrest
  exact ⟨by rw [hfirst']; exact hrest', hactive⟩

theorem Follows.flatMapM {l : List α} {search search' : α → Search (List β)}
    (h : ∀ a ∈ l, Follows active (search a) (search' a)) :
    Follows active (l.flatMapM search) (l.flatMapM search') := by
  induction l with
  | nil => exact .pure
  | cons a l ih =>
    obtain ⟨ha, hl⟩ := List.forall_mem_cons.mp h
    rw [List.flatMapM_cons, List.flatMapM_cons]
    exact ha.bind fun _ => (ih hl).bind fun _ => .pure

end

theorem follows_combine {derive derive' : Nonterminal → Span → Search (List Tree)}
    (h : ∀ symbol part, Follows active (derive symbol part) (derive' symbol part))
    (parts : List (Expr × Span)) :
    Follows active (combine derive parts) (combine derive' parts) := by
  induction parts with
  | nil => exact .pure
  | cons first parts ih =>
    obtain ⟨item, part⟩ := first
    have hnext (trees : List Tree) : Follows active
        (if trees.isEmpty then Pure.pure [] else do
          let tails ← combine derive parts
          Pure.pure (trees.flatMap fun tree => tails.map (tree :: ·)))
        (if trees.isEmpty then Pure.pure [] else do
          let tails ← combine derive' parts
          Pure.pure (trees.flatMap fun tree => tails.map (tree :: ·))) := by
      split
      · exact .pure
      · exact ih.bind fun _ => .pure
    cases item with
    | nonterminal symbol => exact (h symbol part).bind hnext
    | terminal | empty | seq | alt => exact Follows.pure.bind hnext

/-- Nested calls are made with the attempt under way, and afterwards it no longer is. -/
theorem follows_tryOut {call call' : Attempt → Search (List Tree)}
    (h : ∀ nested, Follows (attempt :: active) (call nested) (call' nested)) :
    Follows active (tryOut g emptyParts input call attempt)
      (tryOut g emptyParts input call' attempt) := by
  have hchildren : Follows (attempt :: active)
      ((candidates g emptyParts input attempt).flatMapM (combine fun symbol part =>
        (g.rulesFor symbol).flatMapM fun rule => call ⟨part, rule⟩))
      ((candidates g emptyParts input attempt).flatMapM (combine fun symbol part =>
        (g.rulesFor symbol).flatMapM fun rule => call' ⟨part, rule⟩)) :=
    .flatMapM fun parts _ => follows_combine (fun symbol part => .flatMapM fun rule _ => h _) parts
  intro cycles trees state hrun
  by_cases hactive : attempt ∈ active
  · rw [run_tryOut_of_mem hactive] at hrun ⊢
    obtain ⟨-, rfl⟩ := Prod.mk.inj (Option.some.inj hrun)
    exact ⟨hrun, rfl⟩
  · rw [run_tryOut_of_notMem hactive] at hrun ⊢
    obtain ⟨⟨children, last⟩, hinner, heq⟩ := Option.map_eq_some_iff.mp hrun
    obtain ⟨rfl, rfl⟩ := Prod.mk.inj heq
    obtain ⟨hinner', hlast⟩ := hchildren cycles children last hinner
    refine ⟨?_, ?_⟩
    · rw [State.enter, hinner']
      rfl
    · simp [State.leave, hlast]

/-! ## Any sufficient depth, and any nesting -/

theorem follows_fit (h : depth ≤ depth') : Follows active (fit g emptyParts input depth attempt)
    (fit g emptyParts input depth' attempt) := by
  induction depth generalizing depth' active attempt with
  | zero =>
    intro cycles trees state hrun
    cases hrun
  | succ depth ih =>
    obtain ⟨depth', rfl⟩ := Nat.exists_eq_add_one_of_ne_zero (Nat.ne_zero_of_lt h)
    rw [fit_succ, fit_succ]
    exact follows_tryOut fun _ => ih (Nat.le_of_succ_le_succ h)

/-- What the search is nested in is under way. So none of it is made again. -/
theorem follows_fitOnce (hstack : stack ⊆ active) (h : depth ≤ depth') :
    Follows active (fit g emptyParts input depth attempt)
      (fitOnce g emptyParts input depth' stack attempt) := by
  induction depth generalizing depth' active stack attempt with
  | zero =>
    intro cycles trees state hrun
    cases hrun
  | succ depth ih =>
    obtain ⟨depth', rfl⟩ := Nat.exists_eq_add_one_of_ne_zero (Nat.ne_zero_of_lt h)
    intro cycles trees state hrun
    rw [fit_succ] at hrun
    rw [run_fitOnce_succ hstack]
    have hnested : attempt :: stack ⊆ attempt :: active := List.cons_subset_cons attempt hstack
    exact follows_tryOut (fun _ => ih hnested (Nat.le_of_succ_le_succ h)) cycles trees state hrun

/-- Whatever is under way, an attempt within the input comes to an end, which is the same with any
depth from `maxDepth` on. No attempt is made again within itself, other than to be given up. In the
end the same attempts are under way as before. -/
theorem fit_spec (g : Grammar) (emptyParts : EmptyParts) (input : List Token) :
    (∀ attempt : Attempt, attempt.rule ∈ g.rules → attempt.span.Within input →
      ∀ state : State, ∃ trees cycles, ∀ depth, maxDepth g input ≤ depth →
        (fit g emptyParts input depth attempt).run state = some (trees, ⟨state.active, cycles⟩) ∧
          (fitOnce g emptyParts input depth [] attempt).run state =
            some (trees, ⟨state.active, cycles⟩)) ∧
      (∀ depth attempt (state state' : State) trees,
        (fit g emptyParts input depth attempt).run state = some (trees, state') →
          state'.active = state.active) ∧
      ∃ trees cycles, search g emptyParts input = some (trees, ⟨[], cycles⟩) := by
  refine ⟨fun attempt hr hspan state => ?_, fun depth attempt state state' trees hrun => ?_, ?_⟩
  · have hreturns : Returns (fit g emptyParts input (maxDepth g input) attempt) state.active
        (fits g emptyParts input (maxDepth g input) state.active attempt) :=
      returns_fit room_maxDepth hr hspan
    obtain ⟨cycles, hrun⟩ := hreturns state.cycles
    exact ⟨_, cycles, fun depth hdepth => ⟨(follows_fit hdepth _ _ _ hrun).1,
      (follows_fitOnce (List.nil_subset _) hdepth _ _ _ hrun).1⟩⟩
  · exact (follows_fit (Nat.le_refl depth) _ _ _ hrun).2
  · obtain ⟨cycles, hsearch⟩ := search_eq g emptyParts input
    exact ⟨_, cycles, hsearch⟩

end Unger

end ContextFree
