/-!
# Arithmetic of a machine

A machine computes in words of a fixed number of bits. What does not fit in a word loses its higher
bits or stops the program, depending on how the program was built. Arithmetic without a bound is the
common idealization of both: as long as everything fits, all three agree.
-/

namespace ContextFree

/-- How a program computes with natural numbers. -/
inductive Arithmetic where
  /-- Every number is a word. -/
  | unbounded
  /-- What does not fit in a word of so many bits loses its higher bits. -/
  | wrapping (bits : Nat)
  /-- What does not fit in a word of so many bits stops the program. -/
  | checked (bits : Nat)
deriving DecidableEq

namespace Arithmetic

/-- How many words of so many bits there are. -/
def wordCount (bits : Nat) : Nat :=
  1 <<< bits

/-- Whether a number fits in a word. -/
def IsWord : Arithmetic → Nat → Prop
  | unbounded, _ => True
  | wrapping bits, n => n < wordCount bits
  | checked bits, n => n < wordCount bits

/-- Whether words have a bit of this number, counted from 0. A word can be shifted by just these
numbers. -/
def HasBit : Arithmetic → Nat → Prop
  | unbounded, _ => True
  | wrapping bits, n => n < bits
  | checked bits, n => n < bits

/-- Whether a program stops at what does not fit in a word. -/
def IsChecked : Arithmetic → Prop
  | unbounded => False
  | wrapping _ => False
  | checked _ => True

instance (a : Arithmetic) (n : Nat) : Decidable (a.IsWord n) :=
  match a with
  | unbounded => .isTrue trivial
  | wrapping bits => inferInstanceAs (Decidable (n < wordCount bits))
  | checked bits => inferInstanceAs (Decidable (n < wordCount bits))

instance (a : Arithmetic) (n : Nat) : Decidable (a.HasBit n) :=
  match a with
  | unbounded => .isTrue trivial
  | wrapping bits => inferInstanceAs (Decidable (n < bits))
  | checked bits => inferInstanceAs (Decidable (n < bits))

/-- The sum of two words, unless the program stops. -/
def add? : Arithmetic → Nat → Nat → Option Nat
  | unbounded, m, n => some (m + n)
  | wrapping bits, m, n => some ((m + n) % wordCount bits)
  | checked bits, m, n => if m + n < wordCount bits then some (m + n) else none

/-- What is left of a number in a word. -/
def reduce : Arithmetic → Nat → Nat
  | wrapping bits, n => n % wordCount bits
  | _, n => n

/-- The word before a word, unless the program stops. Without a bound there is none before 0. -/
def pred? : Arithmetic → Nat → Option Nat
  | wrapping bits, 0 => some (wordCount bits - 1)
  | _, 0 => none
  | _, n + 1 => some n

/-- How far a shift by `n` goes, unless the program stops. -/
def shift? : Arithmetic → Nat → Option Nat
  | unbounded, n => some n
  | wrapping bits, n => some (n % bits)
  | checked bits, n => if n < bits then some n else none

/-- How far a shift by `n` goes while the program does not stop. -/
def shift (a : Arithmetic) (n : Nat) : Nat :=
  (a.shift? n).getD n

variable {a : Arithmetic} {k m n : Nat}

theorem wordCount_pos (bits : Nat) : 0 < wordCount bits := by
  rw [wordCount, Nat.one_shiftLeft]
  exact Nat.two_pow_pos bits

theorem IsWord.mono (h : a.IsWord n) (hle : m ≤ n) : a.IsWord m := by
  cases a with
  | unbounded => trivial
  | wrapping bits => exact Nat.lt_of_le_of_lt hle h
  | checked bits => exact Nat.lt_of_le_of_lt hle h

theorem HasBit.mono (h : a.HasBit n) (hle : m ≤ n) : a.HasBit m := by
  cases a with
  | unbounded => trivial
  | wrapping bits => exact Nat.lt_of_le_of_lt hle h
  | checked bits => exact Nat.lt_of_le_of_lt hle h

theorem add?_eq_some (h : a.IsWord (m + n)) : a.add? m n = some (m + n) := by
  cases a with
  | unbounded => rfl
  | wrapping bits => exact congrArg some (Nat.mod_eq_of_lt h)
  | checked bits => exact if_pos h

theorem isWord_of_add?_eq_some (h : a.add? m n = some k) : a.IsWord k := by
  cases a with
  | unbounded => trivial
  | wrapping bits =>
    obtain rfl := Option.some.inj h
    exact Nat.mod_lt _ (wordCount_pos bits)
  | checked bits =>
    obtain ⟨hlt, hk⟩ := Option.ite_none_right_eq_some.mp h
    obtain rfl := Option.some.inj hk
    exact hlt

theorem eq_reduce_of_add?_eq_some (h : a.add? m n = some k) : k = a.reduce (m + n) := by
  cases a with
  | unbounded | wrapping bits => exact (Option.some.inj h).symm
  | checked bits => exact (Option.some.inj (Option.ite_none_right_eq_some.mp h).2).symm

theorem reduce_eq (h : a.IsWord n) : a.reduce n = n := by
  cases a with
  | unbounded | checked bits => rfl
  | wrapping bits => exact Nat.mod_eq_of_lt h

theorem reduce_reduce_add : a.reduce (a.reduce m + n) = a.reduce (m + n) := by
  cases a with
  | unbounded | checked bits => rfl
  | wrapping bits => exact Nat.mod_add_mod m _ n

theorem shift?_eq_none_iff : a.shift? n = none ↔ a.IsChecked ∧ ¬a.HasBit n := by
  cases a <;> simp [shift?, IsChecked, HasBit]

/-- A shift that goes too far stops the program, so any other goes as far as it should. -/
theorem shift_checked (bits : Nat) : (checked bits).shift n = n := by
  rw [shift, shift?]
  split <;> rfl

theorem shift_eq (h : a.HasBit n) : a.shift n = n := by
  cases a with
  | unbounded => rfl
  | wrapping bits => exact Nat.mod_eq_of_lt h
  | checked bits => exact shift_checked bits

theorem shift_zero : a.shift 0 = 0 := by
  cases a with
  | unbounded => rfl
  | wrapping bits => exact Nat.zero_mod bits
  | checked bits => exact shift_checked bits

end Arithmetic

end ContextFree
