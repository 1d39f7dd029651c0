import ContextFree.Names

/-!
# Choices and alternatives

Splitting gives every alternative a rule of its own. A choice inside a sequence gets a new
nonterminal, named by its rule's left-hand side with primes. Joining collects the alternatives of a
nonterminal again in one rule.
-/

namespace ContextFree

namespace Expr

/-- Puts the given symbols, in order, in the place of the choices among `items`. -/
def hideChoices : List Nonterminal → List Expr → List Expr
  | _, [] => []
  | symbol :: symbols, item :: items =>
    if item.isAlt then .nonterminal symbol :: hideChoices symbols items
    else item :: hideChoices (symbol :: symbols) items
  | [], items => items

mutual

/-- The rules by which `lhs` derives what `e` does, without choices. New symbols for the choices of
a sequence are drawn before any of these is split in turn. -/
def splitAs (lhs : Nonterminal) : Expr → Names → List Rule × Names
  | .alt alternatives, names => splitAllAs lhs alternatives names
  | .seq items, names =>
    let drawn := names.primedAll (List.replicate (items.countP isAlt) lhs)
    let hidden := splitHidden drawn.1 items drawn.2
    (⟨lhs, concat (hideChoices drawn.1 items)⟩ :: hidden.1, hidden.2)
  | e, names => ([⟨lhs, e⟩], names)

/-- The rules by which `lhs` derives what any of the alternatives does. -/
def splitAllAs (lhs : Nonterminal) : List Expr → Names → List Rule × Names
  | [], names => ([], names)
  | e :: es, names =>
    let first := splitAs lhs e names
    let rest := splitAllAs lhs es first.2
    (first.1 ++ rest.1, rest.2)

/-- The rules for the symbols that hide the choices among `items`. -/
def splitHidden : List Nonterminal → List Expr → Names → List Rule × Names
  | symbol :: symbols, item :: items, names =>
    if item.isAlt then
      let first := splitAs symbol item names
      let rest := splitHidden symbols items first.2
      (first.1 ++ rest.1, rest.2)
    else splitHidden (symbol :: symbols) items names
  | _, _, names => ([], names)

end

theorem wellFormed_of_mem_hideChoices {items : List Expr} (h : ∀ item ∈ items, item.WellFormed)
    (symbols : List Nonterminal) : ∀ e ∈ hideChoices symbols items, e.WellFormed := by
  induction items generalizing symbols with
  | nil => simp [hideChoices]
  | cons item items ih =>
    obtain ⟨hitem, hitems⟩ := List.forall_mem_cons.mp h
    match symbols with
    | [] => exact h
    | symbol :: symbols =>
      rw [hideChoices]
      split
      · exact List.forall_mem_cons.mpr ⟨.nonterminal symbol, ih hitems symbols⟩
      · exact List.forall_mem_cons.mpr ⟨hitem, ih hitems (symbol :: symbols)⟩

theorem wellFormed_of_mem_splitAs {e : Expr} (h : e.WellFormed) (lhs : Nonterminal)
    (names : Names) : ∀ rule ∈ (splitAs lhs e names).1, rule.rhs.WellFormed := by
  induction e generalizing lhs names with
  | terminal | nonterminal | empty => simpa [splitAs]
  | seq items ih =>
    have hitems := (wellFormed_seq.mp h).2.2
    have hidden (items : List Expr) (sub : ∀ item ∈ items, item.WellFormed ∧
        ∀ lhs names, ∀ rule ∈ (splitAs lhs item names).1, rule.rhs.WellFormed)
        (symbols : List Nonterminal) (names : Names) :
        ∀ rule ∈ (splitHidden symbols items names).1, rule.rhs.WellFormed := by
      induction items generalizing symbols names with
      | nil => cases symbols <;> simp [splitHidden]
      | cons item items ihs =>
        obtain ⟨hitem, hrest⟩ := List.forall_mem_cons.mp sub
        match symbols with
        | [] => simp [splitHidden]
        | symbol :: symbols =>
          rw [splitHidden]
          split
          · exact fun rule hr => (List.mem_append.mp hr).elim (hitem.2 _ _ rule)
              (ihs hrest _ _ rule)
          · exact ihs hrest _ _
    rw [splitAs]
    refine List.forall_mem_cons.mpr
      ⟨wellFormed_concat (wellFormed_of_mem_hideChoices hitems _), hidden items ?_ _ _⟩
    exact fun item hi => ⟨hitems item hi, ih item hi (hitems item hi)⟩
  | alt alternatives ih =>
    have halts := (wellFormed_alt.mp h).2
    rw [splitAs]
    clear h
    induction alternatives generalizing names with
    | nil => simp [splitAllAs]
    | cons e es ihs =>
      obtain ⟨he, hes⟩ := List.forall_mem_cons.mp halts
      obtain ⟨ihe, ihes⟩ := List.forall_mem_cons.mp ih
      rw [splitAllAs]
      exact fun rule hr => (List.mem_append.mp hr).elim (ihe he _ _ rule) (ihs ihes _ hes rule)

end Expr

namespace Rule

/-- The rules into which a list of rules splits. -/
def splitAll : List Rule → Names → List Rule × Names
  | [], names => ([], names)
  | rule :: rules, names =>
    let first := rule.rhs.splitAs rule.lhs names
    let rest := splitAll rules first.2
    (first.1 ++ rest.1, rest.2)

theorem wellFormed_of_mem_splitAll {rules : List Rule} (h : ∀ rule ∈ rules, rule.rhs.WellFormed)
    (names : Names) : ∀ rule ∈ (splitAll rules names).1, rule.rhs.WellFormed := by
  induction rules generalizing names with
  | nil => simp [splitAll]
  | cons rule rules ih =>
    obtain ⟨hrule, hrules⟩ := List.forall_mem_cons.mp h
    rw [splitAll]
    exact fun r hr => (List.mem_append.mp hr).elim
      (Expr.wellFormed_of_mem_splitAs hrule _ _ r) (ih hrules _ r)

/-- One rule for each left-hand side, in order of first appearance, with the right-hand sides of all
its rules as alternatives. -/
def joinAll (rules : List Rule) : List Rule :=
  (rules.map lhs).eraseDups.map fun symbol =>
    ⟨symbol, Expr.anyOf ((rules.filter fun rule => decide (rule.lhs = symbol)).map rhs)⟩

theorem wellFormed_of_mem_joinAll {rules : List Rule} (h : ∀ rule ∈ rules, rule.rhs.WellFormed) :
    ∀ rule ∈ joinAll rules, rule.rhs.WellFormed := by
  intro joined hj
  obtain ⟨symbol, hsymbol, rfl⟩ := List.mem_map.mp hj
  obtain ⟨rule, hrule, rfl⟩ := List.mem_map.mp (List.mem_eraseDups.mp hsymbol)
  refine Expr.wellFormed_anyOf ?_ fun e he => ?_
  · exact List.ne_nil_of_mem (List.mem_map_of_mem (List.mem_filter.mpr ⟨hrule, by simp⟩))
  · obtain ⟨r, hr, rfl⟩ := List.mem_map.mp he
    exact h r (List.mem_filter.mp hr).1

end Rule

namespace Grammar

/-- The grammar with a rule of its own for every alternative. -/
def splitAlternatives (g : Grammar) : Grammar :=
  ofRules (Rule.splitAll g.rules g.names).1 (Rule.wellFormed_of_mem_splitAll g.wellFormed g.names)

/-- The grammar with a single rule for every left-hand side. -/
def joinAlternatives (g : Grammar) : Grammar :=
  ofRules (Rule.joinAll g.rules) (Rule.wellFormed_of_mem_joinAll g.wellFormed)

end Grammar

end ContextFree
