import ContextFree.Names

/-!
# Pairs

Binarizing breaks every sequence into pairs of nonterminals. Terminals in a sequence are first
replaced by new symbols `T1`, `T2`, …; then all items but the last are folded from the left into new
symbols `N1`, `N2`, …
-/

namespace ContextFree

/-- What is needed to draw new symbols: the names in use and the last numbers given to a symbol for
a terminal and to one for a fold. -/
structure Numbering where
  names : Names
  terminals : Nat
  folds : Nat

namespace Numbering

/-- No number has been given out yet. -/
def start (names : Names) : Numbering :=
  ⟨names, 0, 0⟩

/-- A new symbol for a terminal. -/
def terminal (numbering : Numbering) : Nonterminal × Numbering :=
  let drawn := numbering.names.numbered "T" numbering.terminals
  (drawn.1, ⟨drawn.2.2, drawn.2.1, numbering.folds⟩)

/-- A new symbol for a fold. -/
def fold (numbering : Numbering) : Nonterminal × Numbering :=
  let drawn := numbering.names.numbered "N" numbering.folds
  (drawn.1, ⟨drawn.2.2, numbering.terminals, drawn.2.1⟩)

end Numbering

/-- The items of a sequence after its terminals are replaced, the rules for the symbols in their
place, and the numbering that results. -/
structure Lifted where
  items : List Expr
  rules : List Rule
  numbering : Numbering

namespace Expr

/-- Replaces the terminals among `items` by new symbols. -/
def liftTerminals : List Expr → Numbering → Lifted
  | [], numbering => ⟨[], [], numbering⟩
  | .terminal token :: items, numbering =>
    let drawn := numbering.terminal
    let rest := liftTerminals items drawn.2
    ⟨.nonterminal drawn.1 :: rest.items, ⟨drawn.1, .terminal token⟩ :: rest.rules, rest.numbering⟩
  | item :: items, numbering =>
    let rest := liftTerminals items numbering
    ⟨item :: rest.items, rest.rules, rest.numbering⟩

/-- The rules by which `lhs` derives `first` followed by the items, two at a time. -/
def pairUp (lhs : Nonterminal) (first : Expr) : List Expr → Numbering → List Rule × Numbering
  | [], numbering => ([⟨lhs, first⟩], numbering)
  | [last], numbering => ([⟨lhs, concat [first, last]⟩], numbering)
  | item :: items, numbering =>
    let drawn := numbering.fold
    let rest := pairUp lhs (.nonterminal drawn.1) items drawn.2
    (⟨drawn.1, concat [first, item]⟩ :: rest.1, rest.2)

theorem wellFormed_of_mem_liftTerminals {items : List Expr}
    (h : ∀ item ∈ items, item.WellFormed) (numbering : Numbering) :
    (∀ item ∈ (liftTerminals items numbering).items, item.WellFormed) ∧
      ∀ rule ∈ (liftTerminals items numbering).rules, rule.rhs.WellFormed := by
  induction items generalizing numbering with
  | nil => simp [liftTerminals]
  | cons item items ih =>
    obtain ⟨hitem, hitems⟩ := List.forall_mem_cons.mp h
    cases item with
    | terminal token =>
      obtain ⟨hi, hr⟩ := ih hitems numbering.terminal.2
      exact ⟨List.forall_mem_cons.mpr ⟨.nonterminal _, hi⟩,
        List.forall_mem_cons.mpr ⟨.terminal token, hr⟩⟩
    | nonterminal | empty | seq | alt =>
      obtain ⟨hi, hr⟩ := ih hitems numbering
      exact ⟨List.forall_mem_cons.mpr ⟨hitem, hi⟩, hr⟩

theorem wellFormed_of_mem_pairUp {items : List Expr} (h : ∀ item ∈ items, item.WellFormed)
    {lhs : Nonterminal} {first : Expr} (hfirst : first.WellFormed) (numbering : Numbering) :
    ∀ rule ∈ (pairUp lhs first items numbering).1, rule.rhs.WellFormed := by
  have pair {item : Expr} (hitem : item.WellFormed) : (concat [first, item]).WellFormed :=
    wellFormed_concat (by simp [hfirst, hitem])
  fun_induction pairUp lhs first items numbering with
  | case1 => simpa
  | case2 => simpa using pair (by simpa using h)
  | case3 first numbering item items _ _ _ ih =>
    obtain ⟨hitem, hitems⟩ := List.forall_mem_cons.mp h
    exact List.forall_mem_cons.mpr ⟨pair hitem, ih hitems (.nonterminal _)
      fun hitem => wellFormed_concat (by simp [hitem, WellFormed.nonterminal])⟩

end Expr

namespace Rule

/-- The rules that derive what `rule` does through pairs. -/
def binarize (rule : Rule) (numbering : Numbering) : List Rule × Numbering :=
  match rule.rhs with
  | .seq items =>
    let lifted := Expr.liftTerminals items numbering
    match lifted.items with
    | [] => ([], lifted.numbering)
    | first :: rest =>
      let pairs := Expr.pairUp rule.lhs first rest lifted.numbering
      (lifted.rules ++ pairs.1, pairs.2)
  | _ => ([rule], numbering)

/-- The rules that derive what the given ones do through pairs. -/
def binarizeAll : List Rule → Numbering → List Rule × Numbering
  | [], numbering => ([], numbering)
  | rule :: rules, numbering =>
    let first := rule.binarize numbering
    let rest := binarizeAll rules first.2
    (first.1 ++ rest.1, rest.2)

theorem wellFormed_of_mem_binarize {rule : Rule} (h : rule.rhs.WellFormed)
    (numbering : Numbering) : ∀ r ∈ (rule.binarize numbering).1, r.rhs.WellFormed := by
  unfold binarize
  split
  · next items heq =>
    rw [heq] at h
    obtain ⟨hi, hr⟩ := Expr.wellFormed_of_mem_liftTerminals (Expr.wellFormed_seq.mp h).2.2 numbering
    dsimp only
    split
    · simp
    · next first rest hitems =>
      rw [hitems] at hi
      obtain ⟨hfirst, hrest⟩ := List.forall_mem_cons.mp hi
      exact fun r hm => (List.mem_append.mp hm).elim (hr r)
        (Expr.wellFormed_of_mem_pairUp hrest hfirst _ r)
  · simpa

theorem wellFormed_of_mem_binarizeAll {rules : List Rule}
    (h : ∀ rule ∈ rules, rule.rhs.WellFormed) (numbering : Numbering) :
    ∀ r ∈ (binarizeAll rules numbering).1, r.rhs.WellFormed := by
  induction rules generalizing numbering with
  | nil => simp [binarizeAll]
  | cons rule rules ih =>
    obtain ⟨hrule, hrules⟩ := List.forall_mem_cons.mp h
    exact fun r hr => (List.mem_append.mp hr).elim (wellFormed_of_mem_binarize hrule _ r)
      (ih hrules _ r)

end Rule

namespace Grammar

/-- The rules of a grammar broken into pairs, and the numbers given out for that. -/
def pairs (g : Grammar) : List Rule × Numbering :=
  Rule.binarizeAll g.rules (.start g.names)

/-- The grammar with all sequences broken into pairs. -/
def binarize (g : Grammar) : Grammar :=
  rooted g.start? g.pairs.1 (Rule.wellFormed_of_mem_binarizeAll g.wellFormed _)

end Grammar

end ContextFree
