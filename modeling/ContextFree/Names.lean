import ContextFree.Arithmetic
import ContextFree.Grammar.Basic

/-!
# Fresh names

New nonterminals take names that nothing else in the grammar has, be it a nonterminal or a terminal.
A name is either an old one with primes or a letter with a number. The number is that of a counter,
which is a word of the machine and may have to step past the greatest one.
-/

namespace ContextFree

/-- The names that are in use. -/
structure Names where
  taken : List String

/-- The names of all terminals and nonterminals of a grammar. -/
def Grammar.names (g : Grammar) : Names :=
  ⟨g.nonterminals.map Nonterminal.name ++ g.terminals⟩

namespace Names

/-- The least index from `index` on whose name is not taken, or `index + fuel` if all of the
indices before that are taken. -/
def firstFree (taken : List String) (name : Nat → String) : (fuel : Nat) → (index : Nat) → Nat
  | 0, index => index
  | fuel + 1, index =>
    if name index ∈ taken then firstFree taken name fuel (index + 1) else index

/-- The least index from `index` on whose name is free. As the names are distinct, no more of them
than there are names in use can be taken. -/
def freeIndex (names : Names) (name : Nat → String) (index : Nat) : Nat :=
  firstFree names.taken name names.taken.length index

/-- Puts a name in use. -/
def reserve (names : Names) (name : String) : Names :=
  ⟨name :: names.taken⟩

/-- The name of `base` with a number of primes. -/
def primedName (base : Nonterminal) (primes : Nat) : String :=
  base.name ++ String.ofList (List.replicate primes '\'')

/-- A new symbol named as `base` with the least positive number of primes that is free. -/
def primed (names : Names) (base : Nonterminal) : Nonterminal × Names :=
  let name := primedName base (names.freeIndex (primedName base) 1)
  (⟨name⟩, names.reserve name)

/-- The name of a letter or word with a number. -/
def numberedName (stem : String) (number : Nat) : String :=
  stem ++ toString number

/-- The least number above `counter` that is free with `stem`. -/
def nextNumber (names : Names) (stem : String) (counter : Nat) : Nat :=
  names.freeIndex (numberedName stem) (counter + 1)

/-- A new symbol named by `stem` and the least number above `counter` that is free, together with
that number. -/
def numbered (names : Names) (stem : String) (counter : Nat) : Nonterminal × Nat × Names :=
  let number := names.nextNumber stem counter
  let name := numberedName stem number
  (⟨name⟩, number, names.reserve name)

/-- The first index from `index` on whose name is not taken, where the greatest word is followed by
0 or by nothing. -/
def firstFree? (a : Arithmetic) (taken : List String) (name : Nat → String) :
    (fuel : Nat) → (index : Nat) → Option Nat
  | 0, index => some index
  | fuel + 1, index =>
    if name index ∈ taken then (a.add? index 1).bind (firstFree? a taken name fuel) else some index

/-- The number at which a counter stops when it steps on from `counter` until its name is free with
`stem`, unless the program stops before. -/
def nextNumber? (a : Arithmetic) (names : Names) (stem : String) (counter : Nat) : Option Nat :=
  (a.add? counter 1).bind (firstFree? a names.taken (numberedName stem) names.taken.length)

/-- A new symbol named by `stem` and a number to which `counter` steps on, together with that
number, unless the program stops. It is that of `Names.numbered` if the counter does not have to go
past the greatest word. -/
def numbered? (a : Arithmetic) (names : Names) (stem : String) (counter : Nat) :
    Option (Nonterminal × Nat × Names) :=
  (names.nextNumber? a stem counter).map fun number =>
    let name := numberedName stem number
    (⟨name⟩, number, names.reserve name)

/-- A new primed symbol for each of the bases, in order. -/
def primedAll (names : Names) : List Nonterminal → List Nonterminal × Names
  | [] => ([], names)
  | base :: bases =>
    let first := names.primed base
    let rest := first.2.primedAll bases
    (first.1 :: rest.1, rest.2)

end Names

end ContextFree
