import Mathlib.Data.List.Nodup
import Mathlib.Data.List.Perm.Subperm
import Mathlib.Data.Nat.ModEq
import Mathlib.Logic.Function.Basic
import Std.Data.String.ToNat
import ContextFree.Names

/-!
# New names are new

The names that a base or a letter can get are distinct, so after as many of them as there are names
in use one is free. That also holds of a counter that starts over from 0, if words go as far as the
number of names in use. A drawn name is therefore never in use before, and it is in use from then
on. So a run of requests draws distinct names, none of which was in use when it started
(`Names.Supply.nodup_of_grantAll?_eq_some`, `Names.Supply.notHas_of_grantAll?_eq_some`).
-/

namespace ContextFree

/-- From any number on, as many numbers as there are words have different remainders. -/
theorem Arithmetic.reduce_add_inj {a : Arithmetic} {k m n : Nat} (hm : a.IsWord m)
    (hn : a.IsWord n) (h : a.reduce (k + m) = a.reduce (k + n)) : m = n := by
  cases a with
  | unbounded | checked bits => exact Nat.add_left_cancel h
  | wrapping bits => exact (Nat.ModEq.add_left_cancel' k h).eq_of_lt_of_lt hm hn

namespace Names

variable {a : Arithmetic} {names : Names} {base : Nonterminal} {stem : String} {counter : Nat}

/-- Whether the name of a symbol is in use. -/
def Has (names : Names) (symbol : Nonterminal) : Prop :=
  symbol.name ∈ names.taken

/-! ## The first free index -/

section

variable {taken : List String} {name : Nat → String} {fuel index last i : Nat}

/-- A search that stays within words is one without a bound. -/
theorem firstFree?_eq (h : a.IsWord (index + fuel)) :
    firstFree? a taken name fuel index = some (firstFree taken name fuel index) := by
  induction fuel generalizing index with
  | zero => rfl
  | succ fuel ih =>
    rw [firstFree?, firstFree, Arithmetic.add?_eq_some (h.mono (by omega)), Option.bind_some,
      ih (h.mono (by omega)), apply_ite some]

/-- More distinct names than are taken are not all taken. -/
theorem exists_notMem_of_injOn (taken : List String) (name : Nat → String)
    (inj : ∀ i ≤ taken.length, ∀ j ≤ taken.length, name i = name j → i = j) :
    ∃ i ≤ taken.length, name i ∉ taken := by
  by_contra! hall
  have hsubset : (List.range (taken.length + 1)).map name ⊆ taken := by
    intro s hs
    obtain ⟨i, hi, rfl⟩ := List.mem_map.mp hs
    exact hall i (Nat.le_of_lt_succ (List.mem_range.mp hi))
  have hdistinct : ((List.range (taken.length + 1)).map name).Nodup := by
    refine List.Nodup.map_on (fun i hi j hj => ?_) List.nodup_range
    exact inj i (Nat.le_of_lt_succ (List.mem_range.mp hi)) j
      (Nat.le_of_lt_succ (List.mem_range.mp hj))
  have hlen := (hdistinct.subperm hsubset).length_le
  rw [List.length_map, List.length_range] at hlen
  omega

/-- A search that ends at a name that is taken has passed no other. -/
theorem taken_of_firstFree?_eq_some (hindex : a.IsWord index)
    (h : firstFree? a taken name fuel index = some last) (htaken : name last ∈ taken) :
    ∀ i ≤ fuel, name (a.reduce (index + i)) ∈ taken := by
  induction fuel generalizing index with
  | zero =>
    intro i hi
    obtain rfl := Option.some.inj h
    rwa [Nat.le_zero.mp hi, Nat.add_zero, Arithmetic.reduce_eq hindex]
  | succ fuel ih =>
    rw [firstFree?] at h
    split at h
    · next hfirst =>
      obtain ⟨next, hnext, h⟩ := Option.bind_eq_some_iff.mp h
      intro i hi
      cases i with
      | zero => rwa [Nat.add_zero, Arithmetic.reduce_eq hindex]
      | succ i =>
        have hrest := ih (Arithmetic.isWord_of_add?_eq_some hnext) h i (Nat.le_of_succ_le_succ hi)
        rwa [Arithmetic.eq_reduce_of_add?_eq_some hnext, Arithmetic.reduce_reduce_add,
          Nat.add_assoc, Nat.add_comm 1] at hrest
    · next hfree => exact absurd (Option.some.inj h ▸ htaken) hfree

theorem isWord_of_firstFree?_eq_some (hindex : a.IsWord index)
    (h : firstFree? a taken name fuel index = some last) : a.IsWord last := by
  induction fuel generalizing index with
  | zero => exact Option.some.inj h ▸ hindex
  | succ fuel ih =>
    rw [firstFree?] at h
    split at h
    · obtain ⟨next, hnext, h⟩ := Option.bind_eq_some_iff.mp h
      exact ih (Arithmetic.isWord_of_add?_eq_some hnext) h
    · exact Option.some.inj h ▸ hindex

/-- One of the distinct names is free before the search gives up. -/
theorem notMem_of_firstFree?_eq_some (inj : Function.Injective name)
    (hlength : a.IsWord taken.length) (hindex : a.IsWord index)
    (h : firstFree? a taken name taken.length index = some last) : name last ∉ taken := by
  intro htaken
  obtain ⟨i, hi, hfree⟩ := exists_notMem_of_injOn taken (fun i => name (a.reduce (index + i)))
    fun i hi j hj hij => Arithmetic.reduce_add_inj (hlength.mono hi) (hlength.mono hj) (inj hij)
  exact hfree (taken_of_firstFree?_eq_some hindex h htaken i hi)

theorem freeIndex_notMem (inj : Function.Injective name) (index : Nat) :
    name (names.freeIndex name index) ∉ names.taken :=
  notMem_of_firstFree?_eq_some (a := .unbounded) inj trivial trivial (firstFree?_eq trivial)

end

/-! ## Drawing names -/

theorem primedName_injective : Function.Injective (primedName base) := by
  intro i j h
  have := congrArg String.length h
  simpa [primedName] using this

theorem numberedName_injective : Function.Injective (numberedName stem) := by
  intro i j h
  simpa [numberedName, Nat.repr_inj] using h

theorem primed_notHas : ¬names.Has (names.primed base).1 :=
  freeIndex_notMem primedName_injective 1

theorem has_primed_iff {symbol : Nonterminal} : (names.primed base).2.Has symbol ↔
    symbol = (names.primed base).1 ∨ names.Has symbol := by
  simp [Has, primed, reserve, Nonterminal.ext_iff]

theorem numbered_notHas : ¬names.Has (names.numbered stem counter).1 :=
  freeIndex_notMem numberedName_injective (counter + 1)

theorem has_numbered_iff {symbol : Nonterminal} : (names.numbered stem counter).2.2.Has symbol ↔
    symbol = (names.numbered stem counter).1 ∨ names.Has symbol := by
  simp [Has, numbered, reserve, Nonterminal.ext_iff]

/-- A counter that stays within words steps on as one without a bound. The counters for pairs do, as
they start at 0. -/
theorem numbered?_eq (h : a.IsWord (counter + 1 + names.taken.length)) :
    names.numbered? a stem counter = some (names.numbered stem counter) := by
  rw [numbered?, nextNumber?, Arithmetic.add?_eq_some (h.mono (by omega)), Option.bind_some,
    firstFree?_eq h]
  rfl

theorem of_nextNumber?_eq_some {number : Nat} (hlength : a.IsWord names.taken.length)
    (h : names.nextNumber? a stem counter = some number) :
    a.IsWord number ∧ numberedName stem number ∉ names.taken := by
  obtain ⟨first, hfirst, h⟩ := Option.bind_eq_some_iff.mp h
  have hword := Arithmetic.isWord_of_add?_eq_some hfirst
  exact ⟨isWord_of_firstFree?_eq_some hword h,
    notMem_of_firstFree?_eq_some numberedName_injective hlength hword h⟩

/-! ## Runs of requests -/

/-- A request for a name, either that of a symbol with primes or a stem with the number that a
counter steps on to. -/
inductive Request (κ : Type*) where
  | primed (base : Nonterminal)
  | numbered (stem : String) (counter : κ)

/-- The names in use and the counters. -/
structure Supply (κ : Type*) where
  names : Names
  counters : κ → Nat

namespace Supply

variable {κ : Type*} {supply : Supply κ} {n : Nat}

/-- That the counters are words, and that there are words for the number of names in use, also when
`n` more requests are answered. -/
structure Fits (a : Arithmetic) (n : Nat) (supply : Supply κ) : Prop where
  isWord_counters (counter : κ) : a.IsWord (supply.counters counter)
  isWord_length : a.IsWord (supply.names.taken.length + n)

theorem Fits.mono {m : Nat} (h : supply.Fits a n) (hle : m ≤ n) : supply.Fits a m :=
  ⟨h.isWord_counters, h.isWord_length.mono (Nat.add_le_add_left hle _)⟩

theorem Fits.unbounded : supply.Fits .unbounded n :=
  ⟨fun _ => trivial, trivial⟩

variable [DecidableEq κ]

/-- Answers a request, unless the program stops. -/
def grant? (a : Arithmetic) (supply : Supply κ) : Request κ → Option (Nonterminal × Supply κ)
  | .primed base =>
    let drawn := supply.names.primed base
    some (drawn.1, ⟨drawn.2, supply.counters⟩)
  | .numbered stem counter =>
    (supply.names.numbered? a stem (supply.counters counter)).map fun drawn =>
      (drawn.1, ⟨drawn.2.2, Function.update supply.counters counter drawn.2.1⟩)

/-- Answers requests in order, unless the program stops. -/
def grantAll? (a : Arithmetic) (supply : Supply κ) :
    List (Request κ) → Option (List Nonterminal × Supply κ)
  | [] => some ([], supply)
  | request :: requests =>
    (supply.grant? a request).bind fun first =>
      (first.2.grantAll? a requests).map fun rest => (first.1 :: rest.1, rest.2)

variable {request : Request κ} {requests before after : List (Request κ)}
  {answer : Nonterminal × Supply κ} {drawn : List Nonterminal × Supply κ} {symbol : Nonterminal}

theorem grant?_numbered {counter : κ} : supply.grant? a (.numbered stem counter) =
    (supply.names.nextNumber? a stem (supply.counters counter)).map fun number =>
      (⟨numberedName stem number⟩, ⟨supply.names.reserve (numberedName stem number),
        Function.update supply.counters counter number⟩) := by
  rw [grant?, numbered?, Option.map_map]
  rfl

/-- The name drawn is new. It is put in use, and the counters remain words. -/
theorem of_grant?_eq_some (hfits : supply.Fits a n) (h : supply.grant? a request = some answer) :
    ¬supply.names.Has answer.1 ∧ answer.2.names = supply.names.reserve answer.1.name ∧
      ∀ counter, a.IsWord (answer.2.counters counter) := by
  cases request with
  | primed base =>
    obtain rfl := Option.some.inj h
    exact ⟨primed_notHas, rfl, hfits.isWord_counters⟩
  | numbered stem counter =>
    rw [grant?_numbered] at h
    obtain ⟨number, hnumber, rfl⟩ := Option.map_eq_some_iff.mp h
    obtain ⟨hword, hfree⟩ :=
      of_nextNumber?_eq_some (hfits.isWord_length.mono (Nat.le_add_right _ n)) hnumber
    refine ⟨hfree, rfl, fun other => ?_⟩
    rcases eq_or_ne other counter with rfl | hother
    · simpa using hword
    · simpa [Function.update_of_ne hother] using hfits.isWord_counters other

theorem Fits.grant? (hfits : supply.Fits a (n + 1)) (h : supply.grant? a request = some answer) :
    answer.2.Fits a n := by
  obtain ⟨-, hnames, hcounters⟩ := of_grant?_eq_some hfits h
  refine ⟨hcounters, ?_⟩
  rw [hnames, reserve, List.length_cons, Nat.add_assoc, Nat.add_comm 1]
  exact hfits.isWord_length

theorem has_grant?_iff (hfits : supply.Fits a n) (h : supply.grant? a request = some answer) :
    answer.2.names.Has symbol ↔ symbol = answer.1 ∨ supply.names.Has symbol := by
  rw [(of_grant?_eq_some hfits h).2.1]
  simp [Has, reserve, Nonterminal.ext_iff]

theorem grantAll?_cons_eq_some_iff : supply.grantAll? a (request :: requests) = some drawn ↔
    ∃ first rest, supply.grant? a request = some first ∧
      first.2.grantAll? a requests = some rest ∧ (first.1 :: rest.1, rest.2) = drawn := by
  simp only [grantAll?, Option.bind_eq_some_iff, Option.map_eq_some_iff, exists_and_left]

theorem Fits.grantAll? (hfits : supply.Fits a (requests.length + n))
    (h : supply.grantAll? a requests = some drawn) : drawn.2.Fits a n := by
  induction requests generalizing supply drawn with
  | nil =>
    obtain rfl := Option.some.inj h
    simpa using hfits
  | cons request requests ih =>
    obtain ⟨first, rest, hfirst, hrest, rfl⟩ := grantAll?_cons_eq_some_iff.mp h
    rw [List.length_cons, Nat.add_right_comm] at hfits
    have hdone := ih (hfits.grant? hfirst) hrest
    exact hdone

theorem has_grantAll?_iff (hfits : supply.Fits a requests.length)
    (h : supply.grantAll? a requests = some drawn) :
    drawn.2.names.Has symbol ↔ symbol ∈ drawn.1 ∨ supply.names.Has symbol := by
  induction requests generalizing supply drawn with
  | nil =>
    obtain rfl := Option.some.inj h
    simp
  | cons request requests ih =>
    obtain ⟨first, rest, hfirst, hrest, rfl⟩ := grantAll?_cons_eq_some_iff.mp h
    rw [ih (hfits.grant? hfirst) hrest, has_grant?_iff hfits hfirst, List.mem_cons]
    tauto

theorem notHas_of_grantAll?_eq_some (hfits : supply.Fits a requests.length)
    (h : supply.grantAll? a requests = some drawn) (hs : symbol ∈ drawn.1) :
    ¬supply.names.Has symbol := by
  induction requests generalizing supply drawn with
  | nil =>
    obtain rfl := Option.some.inj h
    cases hs
  | cons request requests ih =>
    obtain ⟨first, rest, hfirst, hrest, rfl⟩ := grantAll?_cons_eq_some_iff.mp h
    rcases List.mem_cons.mp hs with rfl | hs
    · exact (of_grant?_eq_some hfits hfirst).1
    · exact fun hhas => ih (hfits.grant? hfirst) hrest hs
        ((has_grant?_iff hfits hfirst).mpr (.inr hhas))

theorem nodup_of_grantAll?_eq_some (hfits : supply.Fits a requests.length)
    (h : supply.grantAll? a requests = some drawn) : drawn.1.Nodup := by
  induction requests generalizing supply drawn with
  | nil =>
    obtain rfl := Option.some.inj h
    exact List.nodup_nil
  | cons request requests ih =>
    obtain ⟨first, rest, hfirst, hrest, rfl⟩ := grantAll?_cons_eq_some_iff.mp h
    refine List.nodup_cons.mpr ⟨fun hmem => ?_, ih (hfits.grant? hfirst) hrest⟩
    exact notHas_of_grantAll?_eq_some (hfits.grant? hfirst) hrest hmem
      ((has_grant?_iff hfits hfirst).mpr (.inl rfl))

/-- To prime all of the bases takes no counters. -/
theorem grantAll?_primed (names : Names) (bases : List Nonterminal) :
    (Supply.mk names Empty.elim).grantAll? a (bases.map .primed) =
      some ((names.primedAll bases).1, ⟨(names.primedAll bases).2, Empty.elim⟩) := by
  induction bases generalizing names with
  | nil => rfl
  | cons base bases ih =>
    simp only [List.map_cons, grantAll?, grant?, ih, primedAll, Option.bind_some, Option.map_some]

end Supply

section

variable {bases : List Nonterminal} {symbol : Nonterminal}

@[simp] theorem length_primedAll : (names.primedAll bases).1.length = bases.length := by
  induction bases generalizing names with
  | nil => rfl
  | cons base bases ih => simp [primedAll, ih]

theorem has_primedAll_iff : (names.primedAll bases).2.Has symbol ↔
    symbol ∈ (names.primedAll bases).1 ∨ names.Has symbol :=
  Supply.has_grantAll?_iff .unbounded (Supply.grantAll?_primed names bases)

theorem primedAll_notHas (h : symbol ∈ (names.primedAll bases).1) : ¬names.Has symbol :=
  Supply.notHas_of_grantAll?_eq_some .unbounded (Supply.grantAll?_primed names bases) h

theorem primedAll_nodup : (names.primedAll bases).1.Nodup :=
  Supply.nodup_of_grantAll?_eq_some .unbounded (Supply.grantAll?_primed names bases)

end

end Names

/-! ## The names of a grammar -/

theorem Grammar.has_names_of_mem_nonterminals {g : Grammar} {symbol : Nonterminal}
    (h : symbol ∈ g.nonterminals) : g.names.Has symbol :=
  List.mem_append_left _ (List.mem_map_of_mem h)

end ContextFree
