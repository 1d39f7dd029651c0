import ContextFree.Proofs.Expr.Substitution

/-!
# Replacing an atom

Sequences and choices are put together anew around what replaces an atom, so items may be flattened,
a sequence may shrink to one item or vanish. None of that shows in the language: to replace an atom
is to let it denote what the replacement denotes (`Expr.language_replace`). The other atoms stay
where they are mentioned (`Expr.mem_atoms_replace`).
-/

namespace ContextFree

/-- Languages for all tokens and for all nonterminals. -/
structure Assignment where
  tokens : Token → Language Token
  symbols : Valuation

/-- What an expression denotes under an assignment. -/
def Expr.language (e : Expr) (A : Assignment) : Language Token :=
  e.denote A.tokens A.symbols

namespace Assignment

/-- Gives another language to a token or to a nonterminal. -/
def reassign (A : Assignment) : (atom : Expr) → Language Token → Assignment
  | .terminal token, l => { A with tokens := Function.update A.tokens token l }
  | .nonterminal symbol, l => { A with symbols := Function.update A.symbols symbol l }
  | _, _ => A

variable {A : Assignment} {atom other : Expr} {l : Language Token}

theorem language_reassign_self (hatom : atom.isAtom) (hne : atom ≠ .empty) :
    atom.language (A.reassign atom l) = l := by
  cases atom with
  | terminal | nonterminal => simp [Expr.language, reassign]
  | empty => exact absurd rfl hne
  | seq | alt => simp [Expr.isAtom] at hatom

theorem language_reassign_of_ne (hother : other.isAtom) (hne : other ≠ atom) :
    other.language (A.reassign atom l) = other.language A := by
  cases other with
  | terminal | nonterminal =>
    cases atom with
    | terminal | nonterminal => simp_all [Expr.language, reassign]
    | empty | seq | alt => rfl
  | empty => rfl
  | seq | alt => simp [Expr.isAtom] at hother

end Assignment

namespace Expr

variable {A : Assignment} {e needle replacement atom : Expr} {es : List Expr}

/-! ## Languages -/

theorem language_replace (hatom : needle.isAtom) (hne : needle ≠ .empty) (e replacement : Expr) :
    (e.replace needle replacement).language A =
      e.language (A.reassign needle (replacement.language A)) := by
  induction e with
  | terminal | nonterminal | empty =>
    rw [replace_of_isAtom rfl]
    split
    · next heq => rw [heq, Assignment.language_reassign_self hatom hne]
    · next hother => rw [Assignment.language_reassign_of_ne rfl hother]
  | seq items ih =>
    rw [replace_seq, language, language, denote_concat, denote_seq, List.map_map]
    exact congrArg List.prod (List.map_congr_left ih)
  | alt alternatives ih =>
    rw [replace_alt, language, language, denote_anyOf, denote_alt, List.map_map]
    exact congrArg List.sum (List.map_congr_left ih)

/-! ## Atoms -/

theorem atoms_of_isAtom (h : e.isAtom) : e.atoms = [e] := by
  cases e with
  | terminal | nonterminal | empty => rfl
  | seq | alt => simp [isAtom] at h

theorem mem_atoms_factors (hne : atom ≠ .empty) :
    (∃ f ∈ e.factors, atom ∈ f.atoms) ↔ atom ∈ e.atoms := by
  cases e <;> simp [factors, hne]

theorem mem_atoms_ofFactors (hne : atom ≠ .empty) :
    atom ∈ (ofFactors es).atoms ↔ ∃ e ∈ es, atom ∈ e.atoms := by
  match es with
  | [] => simp [ofFactors, hne]
  | [e] => simp [ofFactors]
  | _ :: _ :: _ => simp [ofFactors]

/-- Concatenation drops nothing but empty strings. -/
theorem mem_atoms_concat (hne : atom ≠ .empty) :
    atom ∈ (concat es).atoms ↔ ∃ e ∈ es, atom ∈ e.atoms := by
  rw [concat, mem_atoms_ofFactors hne]
  constructor
  · intro h
    obtain ⟨f, hf, hatom⟩ := h
    obtain ⟨e, he, hf⟩ := List.mem_flatMap.mp hf
    exact ⟨e, he, (mem_atoms_factors hne).mp ⟨f, hf, hatom⟩⟩
  · intro h
    obtain ⟨e, he, hatom⟩ := h
    obtain ⟨f, hf, hatom⟩ := (mem_atoms_factors hne).mpr hatom
    exact ⟨f, List.mem_flatMap.mpr ⟨e, he, hf⟩, hatom⟩

theorem mem_atoms_anyOf : atom ∈ (anyOf es).atoms ↔ ∃ e ∈ es, atom ∈ e.atoms := by
  match es with
  | [] => simp [anyOf]
  | [e] => simp [anyOf]
  | _ :: _ :: _ => simp [anyOf]

theorem mem_atoms_replace_of_isAtom (h : e.isAtom) :
    atom ∈ (e.replace needle replacement).atoms ↔
      atom ∈ e.atoms ∧ atom ≠ needle ∨ needle ∈ e.atoms ∧ atom ∈ replacement.atoms := by
  rw [replace_of_isAtom h, atoms_of_isAtom h, List.mem_singleton, List.mem_singleton]
  split
  · next heq => simp [heq]
  · next hother =>
    rw [atoms_of_isAtom h, List.mem_singleton]
    constructor
    · rintro rfl
      exact .inl ⟨rfl, hother⟩
    · rintro (⟨heq, -⟩ | ⟨heq, -⟩)
      · exact heq
      · exact absurd heq.symm hother

/-- An atom is there after a replacement if it was there and is not the one that is replaced, or if
it came with the replacement. -/
theorem mem_atoms_replace (hne : atom ≠ .empty) : atom ∈ (e.replace needle replacement).atoms ↔
    atom ∈ e.atoms ∧ atom ≠ needle ∨ needle ∈ e.atoms ∧ atom ∈ replacement.atoms := by
  have hparts (parts : List Expr) (ih : ∀ part ∈ parts,
      (atom ∈ (part.replace needle replacement).atoms ↔
        atom ∈ part.atoms ∧ atom ≠ needle ∨ needle ∈ part.atoms ∧ atom ∈ replacement.atoms)) :
      (∃ f ∈ parts.map (·.replace needle replacement), atom ∈ f.atoms) ↔
        (∃ part ∈ parts, atom ∈ part.atoms) ∧ atom ≠ needle ∨
          (∃ part ∈ parts, needle ∈ part.atoms) ∧ atom ∈ replacement.atoms :=
    calc (∃ f ∈ parts.map (·.replace needle replacement), atom ∈ f.atoms)
      _ ↔ ∃ part ∈ parts, atom ∈ (part.replace needle replacement).atoms := by simp
      _ ↔ ∃ part ∈ parts, (atom ∈ part.atoms ∧ atom ≠ needle ∨
            needle ∈ part.atoms ∧ atom ∈ replacement.atoms) :=
        exists_congr fun part => and_congr_right (ih part)
      _ ↔ _ := by simp only [and_or_left, exists_or, ← and_assoc, exists_and_right]
  induction e with
  | terminal | nonterminal | empty =>
    exact mem_atoms_replace_of_isAtom rfl
  | seq items ih =>
    rw [replace_seq, mem_atoms_concat hne, hparts items ih]
    simp only [atoms_seq, List.mem_flatMap]
  | alt alternatives ih =>
    rw [replace_alt, mem_atoms_anyOf, hparts alternatives ih]
    simp only [atoms_alt, List.mem_flatMap]

/-! ## Replacements that change nothing -/

/-- Whatever is well-formed is put together again as it was. -/
theorem WellFormed.replace_eq_self (h : e.WellFormed)
    (hself : needle ∈ e.atoms → replacement = needle) : e.replace needle replacement = e := by
  induction e with
  | terminal | nonterminal | empty =>
    rw [replace_of_isAtom rfl]
    split
    · next heq =>
      rw [hself (by rw [← heq]; exact List.mem_singleton_self _), heq]
    · rfl
  | seq items ih =>
    have hitems := (wellFormed_seq.mp h).2.2
    have hsame : ∀ item ∈ items, item.replace needle replacement = item := fun item hi =>
      ih item hi (hitems item hi) fun hneedle =>
        hself (atoms_seq items ▸ List.mem_flatMap.mpr ⟨item, hi, hneedle⟩)
    rw [replace_seq, List.map_congr_left hsame, List.map_id']
    exact h.concat_items
  | alt alternatives ih =>
    obtain ⟨two_le, halts⟩ := wellFormed_alt.mp h
    have hsame : ∀ e ∈ alternatives, e.replace needle replacement = e := fun e he =>
      ih e he (halts e he) fun hneedle =>
        hself (atoms_alt alternatives ▸ List.mem_flatMap.mpr ⟨e, he, hneedle⟩)
    rw [replace_alt, List.map_congr_left hsame, List.map_id']
    exact anyOf_of_two_le two_le

/-- To replace a token or a nonterminal is to give it the language of the replacement. Its mentions
become those of the replacement and all others stay. Where there is nothing to do, nothing is
done. -/
theorem replace_spec (he : e.WellFormed) (hatom : needle.isAtom) (hne : needle ≠ .empty)
    (hreplacement : replacement.WellFormed) :
    (∀ A : Assignment, (e.replace needle replacement).language A =
      e.language (A.reassign needle (replacement.language A))) ∧
    (∀ atom : Expr, atom ≠ .empty → ((e.replace needle replacement).mentions atom ↔
      e.mentions atom ∧ atom ≠ needle ∨ e.mentions needle ∧ replacement.mentions atom)) ∧
    (replacement = needle ∨ ¬e.mentions needle → e.replace needle replacement = e) ∧
    (e.replace needle replacement).WellFormed := by
  simp only [mentions_iff]
  refine ⟨fun A => language_replace hatom hne e replacement, fun atom => mem_atoms_replace,
    fun h => ?_, wellFormed_replace he hreplacement⟩
  exact he.replace_eq_self fun hneedle => h.resolve_right (not_not_intro hneedle)

/-- A sequence of three shrinks to its middle and a sequence of two to nothing. -/
theorem replace_spec_vanishing :
    let A : Expr := .nonterminal ⟨"A"⟩
    let e : Expr := .alt [.seq [A, .terminal "a", A], .seq [A, A]]
    e.WellFormed ∧ A.isAtom ∧ A ≠ .empty ∧ Expr.empty.WellFormed ∧
      e.replace A .empty = .alt [.terminal "a", .empty] ∧
      (∀ I : Assignment,
        (Expr.alt [.terminal "a", .empty]).language I = e.language (I.reassign A 1)) ∧
      (e.replace A .empty).mentions (.terminal "a") ∧ ¬(e.replace A .empty).mentions A ∧
      e.replace A A = e ∧ ¬e.mentions (.terminal "b") ∧ e.replace (.terminal "b") .empty = e := by
  intro A e
  have he : e.WellFormed := by decide
  have hA : A.isAtom := rfl
  have hne : A ≠ .empty := by decide
  have hreplaced : e.replace A .empty = .alt [.terminal "a", .empty] := by rfl
  have hb : (Expr.terminal "b").isAtom := rfl
  have hmissing : ¬e.mentions (.terminal "b") := by decide
  obtain ⟨hlanguage, hmentions, -, -⟩ := replace_spec he hA hne .empty
  obtain ⟨-, -, hself, -⟩ := replace_spec he hA hne (.nonterminal ⟨"A"⟩)
  obtain ⟨-, -, hnothing, -⟩ := replace_spec he hb (by decide) .empty
  refine ⟨he, hA, hne, .empty, hreplaced, fun I => hreplaced ▸ hlanguage I,
    (hmentions _ (by decide)).mpr (.inl (by decide)), fun h => ?_, hself (.inl rfl),
    hmissing, hnothing (.inr hmissing)⟩
  rcases (hmentions A hne).mp h with ⟨-, h⟩ | ⟨-, h⟩
  · exact h rfl
  · exact absurd h (by decide)

end Expr

end ContextFree
