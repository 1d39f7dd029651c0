import ContextFree.Proofs.Grammar.Atoms

/-!
# What splitting leaves

However deeply choices and sequences are nested, splitting leaves atoms and rows of terminals and
nonterminals. The symbols that hide choices are drawn while all names of the grammar are in use, so
they are not named like anything in it, and its own symbols derive what they did before
(`Grammar.splitAlternatives_spec`).
-/

namespace ContextFree

/-- Without choices, a right-hand side is an atom or consists of terminals and nonterminals. -/
theorem Expr.WellFormed.isAtom_or_eq_seq {e : Expr} (h : e.WellFormed) (hfree : e.isChoiceFree) :
    e.isAtom ∨ ∃ items, e = .seq items ∧ 2 ≤ items.length ∧
      ∀ item ∈ items, (∃ token, item = .terminal token) ∨ ∃ symbol, item = .nonterminal symbol := by
  cases h with
  | terminal | nonterminal | empty => exact .inl rfl
  | alt => simp at hfree
  | @seq items two_le hfactor hitems =>
    refine .inr ⟨items, rfl, two_le, fun item hi => ?_⟩
    have hatom := (WellFormed.seq two_le hfactor hitems).isAtom_of_mem_items hfree hi
    cases item with
    | terminal token => exact .inl ⟨token, rfl⟩
    | nonterminal symbol => exact .inr ⟨symbol, rfl⟩
    | empty => exact absurd (hfactor _ hi) (by simp [isFactor])
    | seq | alt => simp [isAtom] at hatom

namespace Grammar

variable {g : Grammar} {symbol : Nonterminal}

/-- A nonterminal of the grammar, or one whose name is not in use in it. No condition is put on
other atoms. -/
def KnownOrNew (g : Grammar) (atom : Expr) : Prop :=
  ∀ symbol, atom = .nonterminal symbol → symbol ∈ g.nonterminals ∨ ¬g.names.Has symbol

theorem holdsOfPrimed_knownOrNew : HoldsOfPrimed g.names g.KnownOrNew where
  empty _ h := by simp at h
  primed later hle base _ symbol h := by
    obtain rfl := Expr.nonterminal.inj h
    exact .inr fun hhas => Names.primed_notHas (hle _ hhas)

theorem eachAtom_knownOrNew : g.EachAtom g.KnownOrNew := by
  refine fun rule hr => ⟨fun symbol h => .inl ?_, fun atom ha symbol h => .inl ?_⟩
  · obtain rfl := Expr.nonterminal.inj h
    exact mem_nonterminals.mpr ⟨rule, hr, .inl rfl⟩
  · exact mem_nonterminals.mpr ⟨rule, hr, .inr (Expr.mem_nonterminals.mpr (h ▸ ha))⟩

/-- A symbol that splitting adds is named like nothing in the grammar. -/
theorem notHas_of_mem_nonterminals_splitAlternatives
    (hs : symbol ∈ g.splitAlternatives.nonterminals) (hnew : symbol ∉ g.nonterminals) :
    ¬g.names.Has symbol := by
  have heach := eachAtom_splitAlternatives holdsOfPrimed_knownOrNew eachAtom_knownOrNew (g := g)
  obtain ⟨rule, hr, rfl | hmem⟩ := mem_nonterminals.mp hs
  · exact ((heach rule hr).1 _ rfl).resolve_left hnew
  · exact ((heach rule hr).2 _ (Expr.mem_nonterminals.mp hmem) _ rfl).resolve_left hnew

theorem has_names_iff : g.names.Has symbol ↔
    (∃ other ∈ g.nonterminals, other.name = symbol.name) ∨ symbol.name ∈ g.terminals := by
  simp [Names.Has, names]

/-- Splitting leaves no choices, adds only symbols with names of their own, and changes neither the
start symbol nor what the symbols of the grammar derive. -/
theorem splitAlternatives_spec (g : Grammar) :
    (∀ rule ∈ g.splitAlternatives.rules, rule.rhs.isAtom ∨
      ∃ items, rule.rhs = .seq items ∧ 2 ≤ items.length ∧ ∀ item ∈ items,
        (∃ token, item = .terminal token) ∨ ∃ symbol, item = .nonterminal symbol) ∧
    (∀ symbol ∈ g.splitAlternatives.nonterminals, symbol ∉ g.nonterminals →
      (∀ other ∈ g.nonterminals, other.name ≠ symbol.name) ∧ symbol.name ∉ g.terminals) ∧
    g.splitAlternatives.start? = g.start? ∧
    ∀ symbol ∈ g.nonterminals, ∀ w,
      g.splitAlternatives.Derives (.nonterminal symbol) w ↔ g.Derives (.nonterminal symbol) w := by
  refine ⟨fun rule hr => ?_, fun symbol hs hnew => ?_, start?_splitAlternatives,
    fun symbol hs w => ?_⟩
  · exact (wellFormed _ rule hr).isAtom_or_eq_seq (splitAlternatives_isChoiceFree rule hr)
  · have hnot := notHas_of_mem_nonterminals_splitAlternatives hs hnew
    rw [has_names_iff, not_or] at hnot
    exact ⟨fun other ho heq => hnot.1 ⟨other, ho, heq⟩, hnot.2⟩
  · rw [← mem_languages, ← mem_languages,
      languages_splitAlternatives (has_names_of_mem_nonterminals hs)]

/-- A choice within a choice, where a terminal has taken the name with one prime. -/
example : (Expr.splitAs ⟨"S"⟩ (.seq [.terminal "S'",
      .alt [.empty, .seq [.alt [.terminal "a", .empty], .terminal "b"]]])
      ⟨["S", "S'", "a", "b"]⟩).1 =
    [⟨⟨"S"⟩, .seq [.terminal "S'", .nonterminal ⟨"S''"⟩]⟩, ⟨⟨"S''"⟩, .empty⟩,
      ⟨⟨"S''"⟩, .seq [.nonterminal ⟨"S'''"⟩, .terminal "b"]⟩, ⟨⟨"S'''"⟩, .terminal "a"⟩,
      ⟨⟨"S'''"⟩, .empty⟩] := by
  decide +kernel

end Grammar

end ContextFree
