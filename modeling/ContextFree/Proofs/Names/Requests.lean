import Mathlib.Order.Bounds.Basic
import ContextFree.Proofs.Construction
import ContextFree.Proofs.Names

/-!
# Interleaved requests for names

Primed and numbered names are drawn from one supply in any order, the numbered ones with any number
of counters. Different requests can compete for one name, as a base may end in primes and a stem in
digits: `S` with two primes is `S'` with one, and `T` with 11 is `T1` with 1. Each request is
nevertheless answered by the first of its names that is free at the time, after finitely many
attempts (`Names.Supply.isAnswered_grant?`), and no name is drawn twice
(`Names.Supply.grantAll_spec`). Only a counter above which no word is free starts over from 0, if
the program does not stop there.
-/

namespace ContextFree

/-! ## The names in a grammar -/

namespace Names

/-! ## Loops -/

section

variable {σ τ : Type*} {again : σ → Prop} {next : σ → Option σ} {first last : Option σ}

/-- Entered in the first of the two states, the loop that replaces its state by the next one as long
as a condition holds ends in the second. There is no state once the program has stopped. -/
inductive LoopEnds (again : σ → Prop) (next : σ → Option σ) : Option σ → Option σ → Prop where
  | stopped : LoopEnds again next none none
  | done {state : σ} (not_again : ¬again state) : LoopEnds again next (some state) (some state)
  | round {state : σ} {last : Option σ} (again_state : again state)
      (rest : LoopEnds again next (next state) last) : LoopEnds again next (some state) last

/-- A loop does the same on other representations of its states. -/
theorem LoopEnds.map {again : τ → Prop} {nextImage : τ → Option τ} (f : σ → τ)
    (hnext : ∀ state, (next state).map f = nextImage (f state))
    (h : LoopEnds (fun state => again (f state)) next first last) :
    LoopEnds again nextImage (first.map f) (last.map f) := by
  induction h with
  | stopped => exact .stopped
  | done not_again => exact .done not_again
  | round again_state _ ih => exact .round again_state (hnext _ ▸ ih)

end

section

variable {a : Arithmetic} {again : Nat → Prop} {index counter : Nat} {last : Option Nat}

end

variable {a : Arithmetic} {names : Names} {name : Nat → String} {taken : List String}
  {fuel index : Nat}

section

variable {stem : String} {counter : Nat}

end

variable {κ : Type*} [DecidableEq κ]

namespace Supply

variable {supply : Supply κ} {request : Request κ} {n : Nat}

/-- Above the greatest word there is nothing to go on to, so a counter stops the program there or
starts over. -/
example :
    let supply : Supply Unit := ⟨⟨["T0"]⟩, fun _ => Arithmetic.wordCount 64 - 1⟩
    (supply.grant? (.checked 64) (.numbered "T" ())).isNone ∧
      (supply.grant? (.wrapping 64) (.numbered "T" ())).map Prod.fst = some ⟨"T1"⟩ := by
  decide

end Supply

end Names

end ContextFree
