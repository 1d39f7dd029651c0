import ContextFree.Proofs.Grammar.Atoms
import ContextFree.Proofs.Source.Word
import ContextFree.Source.Line

/-!
# Grammars that can be written down

A grammar can be written without quotes and brackets if its right-hand sides are not nested and all
of its names are words that are read as what they name. The names that are drawn for new symbols are
such words, so the splits and normal forms of such grammars can be written down, too.
-/

namespace ContextFree

/-- The words that stand for no name. -/
def reservedWords : List String :=
  ["->", "→", "ε"]

/-- A word that is read as a nonterminal. -/
structure Nonterminal.IsPrintable (symbol : Nonterminal) : Prop where
  isWord : IsWord symbol.name.toList
  isNonterminalName : ContextFree.isNonterminalName symbol.name

/-- A word that is read as a terminal. -/
structure Token.IsPrintable (token : Token) : Prop where
  isWord : IsWord token.toList
  not_isNonterminalName : ¬isNonterminalName token
  notQuoted : token.toList.head? ≠ some '\''
  notReserved : token ∉ reservedWords

namespace Expr

/-- An atom that is written as a word, the empty string included. -/
def IsPrintable : Expr → Prop
  | .terminal token => Token.IsPrintable token
  | .nonterminal symbol => symbol.IsPrintable
  | _ => True

/-- Atoms and sequences of atoms. -/
def isLinear : Expr → Bool
  | .seq items => items.all isAtom
  | e => e.isAtom

/-- Atoms, sequences of atoms, and choices among these. -/
def isFlat : Expr → Bool
  | .alt alternatives => alternatives.all isLinear
  | e => e.isLinear

theorem isFlat_of_isLinear {e : Expr} (h : e.isLinear) : e.isFlat := by
  cases e with
  | terminal | nonterminal | empty | seq => exact h
  | alt => simp [isLinear, isAtom] at h

theorem isLinear_of_isChoiceFree {e : Expr} (hwf : e.WellFormed) (h : e.isChoiceFree) :
    e.isLinear := by
  cases e with
  | terminal | nonterminal | empty => rfl
  | seq items => exact List.all_eq_true.mpr fun item hi => hwf.isAtom_of_mem_items h hi
  | alt => simp at h

/-- The items of an alternative are atoms. -/
theorem isAtom_of_mem_items {e item : Expr} (h : e.isLinear) (hi : item ∈ e.items) :
    item.isAtom := by
  cases e with
  | seq items => exact List.all_eq_true.mp h item hi
  | terminal | nonterminal | empty | alt => rwa [List.mem_singleton.mp hi]

end Expr

namespace Grammar

/-- No right-hand side is nested, and all names can be written down. -/
structure IsPrintable (g : Grammar) : Prop where
  flat : ∀ rule ∈ g.rules, rule.rhs.isFlat
  nonterminals : ∀ symbol ∈ g.nonterminals, symbol.IsPrintable
  terminals : ∀ token ∈ g.terminals, Token.IsPrintable token

variable {g : Grammar}

theorem isPrintable_iff :
    g.IsPrintable ↔ (∀ rule ∈ g.rules, rule.rhs.isFlat) ∧ g.EachAtom Expr.IsPrintable := by
  constructor
  · intro h
    refine ⟨h.flat, fun rule hr => ⟨?_, fun atom ha => ?_⟩⟩
    · exact h.nonterminals _ (mem_nonterminals.mpr ⟨rule, hr, .inl rfl⟩)
    · cases atom with
      | terminal token =>
        exact h.terminals token (mem_terminals.mpr ⟨rule, hr, Expr.mem_tokens.mpr ha⟩)
      | nonterminal symbol =>
        exact h.nonterminals symbol
          (mem_nonterminals.mpr ⟨rule, hr, .inr (Expr.mem_nonterminals.mpr ha)⟩)
      | empty | seq | alt => trivial
  · intro h
    refine ⟨h.1, fun symbol hs => ?_, fun token ht => ?_⟩
    · obtain ⟨rule, hr, rfl | hs⟩ := mem_nonterminals.mp hs
      · exact (h.2 rule hr).1
      · exact (h.2 rule hr).2 _ (Expr.mem_nonterminals.mp hs)
    · obtain ⟨rule, hr, ht⟩ := mem_terminals.mp ht
      exact (h.2 rule hr).2 _ (Expr.mem_tokens.mp ht)

end Grammar

/-! ## New names -/

theorem isNonterminalName_append {name suffix : String} (h : isNonterminalName name) :
    isNonterminalName (name ++ suffix) := by
  simp only [isNonterminalName, String.toList_append, List.head?_append] at h ⊢
  cases hhead : name.toList.head? with
  | none => simp [hhead] at h
  | some c => simpa [hhead] using h

theorem Nonterminal.IsPrintable.primed {base : Nonterminal} (h : base.IsPrintable) (primes : Nat) :
    Nonterminal.IsPrintable ⟨Names.primedName base primes⟩ where
  isWord := by
    rw [Names.primedName, String.toList_append, String.toList_ofList]
    apply h.isWord.append
    intro c hc
    rw [List.eq_of_mem_replicate hc]
    decide
  isNonterminalName := isNonterminalName_append h.isNonterminalName

theorem not_isBlank_of_isDigit {c : Char} (h : c.isDigit) :
    ¬Text.isBlank c ∧ c ≠ '|' ∧ c ≠ '/' ∧ c ≠ '*' := by
  have hrange : 48 ≤ c.toNat ∧ c.toNat ≤ 57 := by
    simpa [Char.isDigit, UInt32.le_iff_toNat_le] using h
  refine ⟨?_, ?_, ?_, ?_⟩
  · simp [Text.isBlank, Text.blankRanges]
    omega
  all_goals
    rintro rfl
    simp at hrange

theorem Nonterminal.isPrintable_numbered {stem : String} (h : Nonterminal.IsPrintable ⟨stem⟩)
    (number : Nat) : Nonterminal.IsPrintable ⟨Names.numberedName stem number⟩ where
  isWord := by
    rw [Names.numberedName, String.toList_append]
    refine h.isWord.append fun c hc => not_isBlank_of_isDigit ?_
    rw [Nat.toString_eq_repr, Nat.toList_repr] at hc
    exact Nat.isDigit_of_mem_toDigits (by decide) (by decide) hc
  isNonterminalName := isNonterminalName_append h.isNonterminalName

theorem holdsOfNew_isPrintable : HoldsOfNew Expr.IsPrintable where
  empty := trivial
  primed _ h := h.primed
  terminal := Nonterminal.isPrintable_numbered ⟨by decide, by decide⟩
  fold := Nonterminal.isPrintable_numbered ⟨by decide, by decide⟩

namespace Grammar

variable {g : Grammar}

theorem isPrintable_of_isChoiceFree (hfree : g.IsChoiceFree) (h : g.EachAtom Expr.IsPrintable) :
    g.IsPrintable :=
  isPrintable_iff.mpr ⟨fun rule hr => Expr.isFlat_of_isLinear
    (Expr.isLinear_of_isChoiceFree (g.wellFormed rule hr) (hfree rule hr)), h⟩

theorem IsPrintable.splitAlternatives (h : g.IsPrintable) : g.splitAlternatives.IsPrintable :=
  isPrintable_of_isChoiceFree splitAlternatives_isChoiceFree
    (eachAtom_splitAlternatives (holdsOfNew_isPrintable.holdsOfPrimed _) (isPrintable_iff.mp h).2)

theorem IsPrintable.toCnf (h : g.IsPrintable) (a : Arithmetic) : (g.toCnf a).IsPrintable :=
  isPrintable_of_isChoiceFree (g.isNormal_toCnf a).isChoiceFree
    (eachAtom_toCnf holdsOfNew_isPrintable (isPrintable_iff.mp h).2)

end Grammar

end ContextFree
