import ContextFree.Proofs.Grammar.NormalForm

/-!
# Grammars without useless rules

A grammar is clean when all that its rules mention is productive and all that they define can be
reached from the start symbol. The closures by which useless rules are left out compute these two
notions (`mem_productiveRules_iff`, `mem_reachableFrom_iff`), so the useful part of any grammar is
clean. Breaking sequences into pairs keeps a grammar clean: a new symbol takes part in the pairs of
the rule that it is drawn for, and stands for items that are productive.
-/

namespace ContextFree

namespace Expr

/-- All nonterminals of the expression have the property. -/
def Each (p : Nonterminal → Prop) (e : Expr) : Prop :=
  ∀ symbol ∈ e.nonterminals, p symbol

variable {p : Nonterminal → Prop}

@[simp] theorem each_terminal (token : Token) : (terminal token).Each p := by
  simp [Each, mem_nonterminals]

@[simp] theorem each_nonterminal {symbol : Nonterminal} :
    (nonterminal symbol).Each p ↔ p symbol := by
  simp [Each, mem_nonterminals]

theorem each_seq {items : List Expr} : (seq items).Each p ↔ ∀ item ∈ items, item.Each p := by
  simp only [Each, mem_nonterminals_seq]
  exact ⟨fun h item hi symbol hs => h symbol ⟨item, hi, hs⟩,
    fun h symbol ⟨item, hi, hs⟩ => h item hi symbol hs⟩

theorem each_concat {es : List Expr} : (concat es).Each p ↔ ∀ e ∈ es, e.Each p := by
  simp only [Each, mem_nonterminals_concat]
  exact ⟨fun h e he symbol hs => h symbol ⟨e, he, hs⟩,
    fun h symbol ⟨e, he, hs⟩ => h e he symbol hs⟩

end Expr

namespace Grammar

variable {g : Grammar} {start symbol : Nonterminal} {rule : Rule}

/-! ## Productive and reachable symbols -/

/-- A symbol is productive when a rule for it mentions only productive symbols. -/
inductive Productive (g : Grammar) : Nonterminal → Prop where
  | rule {rule : Rule} (mem : rule ∈ g.rules)
      (mentioned : ∀ symbol ∈ rule.rhs.nonterminals, Productive g symbol) :
      Productive g rule.lhs

/-- A symbol is reachable when it is the start symbol or a rule for a reachable symbol mentions
it. -/
inductive Reachable (g : Grammar) : Nonterminal → Prop where
  | start {start : Nonterminal} (start? : g.start? = some start) : Reachable g start
  | rule {rule : Rule} {symbol : Nonterminal} (mem : rule ∈ g.rules)
      (lhs : Reachable g rule.lhs) (mentioned : symbol ∈ rule.rhs.nonterminals) :
      Reachable g symbol

theorem Productive.exists_rule (h : g.Productive symbol) : ∃ rule ∈ g.rules, rule.lhs = symbol := by
  obtain ⟨mem, -⟩ := h
  exact ⟨_, mem, rfl⟩

theorem Productive.exists_productiveRule (h : g.Productive symbol) :
    ∃ rule ∈ g.productiveRules, rule.lhs = symbol := by
  induction h with
  | @rule rule mem _ ih => exact ⟨rule, mem_productiveRules mem ih, rfl⟩

theorem mem_productiveRules_iff : rule ∈ g.productiveRules ↔
    rule ∈ g.rules ∧ rule.rhs.Each g.Productive := by
  constructor
  · refine g.productiveStep.closure_induction
      (p := fun rule => rule ∈ g.rules ∧ rule.rhs.Each g.Productive) (by simp) ?_ rule
    intro known _ _ hknown rule hr
    obtain ⟨hr, hall⟩ := List.mem_filter.mp hr
    refine ⟨hr, fun symbol hs => ?_⟩
    have hhead := List.all_eq_true.mp hall symbol hs
    obtain ⟨source, hsource, rfl⟩ := List.mem_map.mp (List.contains_iff_mem.mp hhead)
    obtain ⟨hmem, heach⟩ := hknown source hsource
    exact .rule hmem heach
  · exact fun ⟨hr, heach⟩ => mem_productiveRules hr fun s hs => (heach s hs).exists_productiveRule

theorem mem_reachableFrom_iff (hstart : g.start? = some start) :
    symbol ∈ g.reachableFrom start ↔ g.Reachable symbol := by
  constructor
  · refine g.reachableStep.closure_induction (by simpa using .start hstart) ?_ symbol
    intro known frontier hsub hknown symbol hs
    obtain ⟨source, hsource, hs⟩ := List.mem_flatMap.mp hs
    obtain ⟨rule, hrule, hmentioned⟩ := List.mem_flatMap.mp hs
    obtain ⟨hr, rfl⟩ := mem_rulesFor.mp hrule
    exact .rule hr (hknown _ (hsub hsource)) hmentioned
  · intro h
    induction h with
    | start h =>
      obtain rfl := Option.some.inj (hstart.symm.trans h)
      exact mem_reachableFrom_self
    | rule mem _ mentioned ih => exact mem_reachableFrom_of_rule mem ih mentioned

theorem mem_reachablePart_iff :
    rule ∈ g.reachablePart.rules ↔ rule ∈ g.rules ∧ g.Reachable rule.lhs := by
  cases hstart : g.start? with
  | none => simp [reachablePart, hstart, start?_eq_none_iff.mp hstart]
  | some start => rw [mem_reachablePart hstart, mem_reachableFrom_iff hstart]

theorem mem_productivePart_iff (h : g.productivePart.rules ≠ []) :
    rule ∈ g.productivePart.rules ↔ rule ∈ g.rules ∧ rule.rhs.Each g.Productive := by
  rw [productivePart, mem_rooted _ h, List.mem_filter, List.contains_iff_mem,
    mem_productiveRules_iff, and_iff_right_iff_imp]
  exact And.left

/-! ## Leaving out rules -/

/-- No rule is useless: its right-hand side can be done with, and its left-hand side is needed. -/
structure IsClean (g : Grammar) : Prop where
  productive : ∀ rule ∈ g.rules, rule.rhs.Each g.Productive
  reachable : ∀ rule ∈ g.rules, g.Reachable rule.lhs

theorem productive_productivePart (h : g.productivePart.rules ≠ []) (hs : g.Productive symbol) :
    g.productivePart.Productive symbol := by
  induction hs with
  | rule mem mentioned ih => exact .rule ((mem_productivePart_iff h).mpr ⟨mem, mentioned⟩) ih

theorem each_productive_productivePart (hr : rule ∈ g.productivePart.rules) :
    rule.rhs.Each g.productivePart.Productive := by
  have hne := List.ne_nil_of_mem hr
  exact fun s hs => productive_productivePart hne (((mem_productivePart_iff hne).mp hr).2 s hs)

theorem reachable_reachablePart (hs : g.Reachable symbol) : g.reachablePart.Reachable symbol := by
  induction hs with
  | start h => exact .start (start?_reachablePart.trans h)
  | rule mem lhs mentioned ih => exact .rule (mem_reachablePart_iff.mpr ⟨mem, lhs⟩) ih mentioned

/-- All rules of a reachable symbol are left, and what they mention is reachable, too. -/
theorem productive_reachablePart (hs : g.Productive symbol) (hreach : g.Reachable symbol) :
    g.reachablePart.Productive symbol := by
  induction hs with
  | rule mem _ ih =>
    exact .rule (mem_reachablePart_iff.mpr ⟨mem, hreach⟩)
      fun s hs => ih s hs (.rule mem hreach hs)

theorem isClean_usefulPart : g.usefulPart.IsClean where
  productive rule hr symbol hs := by
    obtain ⟨hr, hreach⟩ := mem_reachablePart_iff.mp hr
    exact productive_reachablePart (each_productive_productivePart hr symbol hs)
      (.rule hr hreach hs)
  reachable rule hr := reachable_reachablePart (mem_reachablePart_iff.mp hr).2

end Grammar

/-! ## Pairs -/

namespace Expr

variable {g : Grammar} {items : List Expr} {lhs : Nonterminal} {first : Expr}
  {numbering : Numbering}

theorem each_productive_liftTerminals
    (hrules : ∀ rule ∈ (liftTerminals items numbering).rules, rule ∈ g.rules)
    (hitems : ∀ item ∈ items, item.Each g.Productive) :
    ∀ item ∈ (liftTerminals items numbering).items, item.Each g.Productive := by
  intro item hi
  rcases mem_items_liftTerminals.mp hi with ⟨hi, -⟩ | ⟨⟨symbol, rhs⟩, hr, rfl⟩
  · exact hitems item hi
  · obtain ⟨-, token, -, hrhs⟩ := draws_of_mem_liftTerminals _ hr
    obtain rfl : rhs = .terminal token := hrhs
    exact each_nonterminal.mpr (.rule (hrules _ hr) (each_terminal token))

theorem each_productive_pairUp
    (hrules : ∀ rule ∈ (pairUp lhs first items numbering).1, rule ∈ g.rules)
    (hfirst : first.Each g.Productive) (hitems : ∀ item ∈ items, item.Each g.Productive) :
    ∀ rule ∈ (pairUp lhs first items numbering).1, rule.rhs.Each g.Productive := by
  induction items generalizing first numbering with
  | nil => exact List.forall_mem_singleton.mpr hfirst
  | cons item items ih =>
    obtain ⟨hitem, hrest⟩ := List.forall_mem_cons.mp hitems
    have hpair : (concat [first, item]).Each g.Productive :=
      each_concat.mpr (by simp [hfirst, hitem])
    cases items with
    | nil => exact List.forall_mem_singleton.mpr hpair
    | cons next items =>
      rw [pairUp_cons_cons] at hrules ⊢
      obtain ⟨hfold, hrules⟩ := List.forall_mem_cons.mp hrules
      exact List.forall_mem_cons.mpr
        ⟨hpair, ih hrules (each_nonterminal.mpr (.rule hfold hpair)) hrest⟩

theorem exists_mem_pairUp (lhs : Nonterminal) (first : Expr) (items : List Expr)
    (numbering : Numbering) : ∃ rule ∈ (pairUp lhs first items numbering).1, rule.lhs = lhs := by
  induction items generalizing first numbering with
  | nil => exact ⟨_, List.mem_singleton_self _, rfl⟩
  | cons item items ih =>
    cases items with
    | nil => exact ⟨_, List.mem_singleton_self _, rfl⟩
    | cons next items =>
      rw [pairUp_cons_cons]
      obtain ⟨rule, hr, hlhs⟩ := ih (.nonterminal numbering.fold.1) numbering.fold.2
      exact ⟨rule, List.mem_cons_of_mem _ hr, hlhs⟩

/-- The symbols drawn for terminals are mentioned in their place. -/
theorem reachable_liftTerminals
    (hitems : ∀ item ∈ (liftTerminals items numbering).items, item.Each g.Reachable) :
    (∀ rule ∈ (liftTerminals items numbering).rules, g.Reachable rule.lhs) ∧
      ∀ item ∈ items, item.Each g.Reachable := by
  constructor
  · intro rule hr
    exact each_nonterminal.mp (hitems _ (mem_items_liftTerminals.mpr (.inr ⟨rule, hr, rfl⟩)))
  · intro item hi
    cases hterminal : item.terminal? with
    | some token =>
      rw [terminal?_eq_some_iff.mp hterminal]
      exact each_terminal token
    | none => exact hitems item (mem_items_liftTerminals.mpr (.inl ⟨hi, hterminal⟩))

/-- From the left-hand side all folds are reached, from the last one down to the first. -/
theorem reachable_pairUp (hrules : ∀ rule ∈ (pairUp lhs first items numbering).1, rule ∈ g.rules)
    (hlhs : g.Reachable lhs) :
    (∀ rule ∈ (pairUp lhs first items numbering).1, g.Reachable rule.lhs) ∧
      ∀ item ∈ first :: items, item.Each g.Reachable := by
  induction items generalizing first numbering with
  | nil =>
    have hrule := List.forall_mem_singleton.mp hrules
    exact ⟨List.forall_mem_singleton.mpr hlhs,
      List.forall_mem_singleton.mpr fun s hs => .rule hrule hlhs hs⟩
  | cons item items ih =>
    have hpair {symbol : Nonterminal} (hr : ⟨symbol, concat [first, item]⟩ ∈ g.rules)
        (hs : g.Reachable symbol) : first.Each g.Reachable ∧ item.Each g.Reachable := by
      have heach : (concat [first, item]).Each g.Reachable := fun s hmem => .rule hr hs hmem
      simpa using each_concat.mp heach
    cases items with
    | nil =>
      obtain ⟨hfirst, hitem⟩ := hpair (List.forall_mem_singleton.mp hrules) hlhs
      exact ⟨List.forall_mem_singleton.mpr hlhs, by simp [hfirst, hitem]⟩
    | cons next items =>
      rw [pairUp_cons_cons] at hrules ⊢
      obtain ⟨hfold, hrules⟩ := List.forall_mem_cons.mp hrules
      obtain ⟨hreach, hall⟩ := ih hrules
      obtain ⟨hdrawn, hrest⟩ := List.forall_mem_cons.mp hall
      obtain ⟨hfirst, hitem⟩ := hpair hfold (each_nonterminal.mp hdrawn)
      exact ⟨List.forall_mem_cons.mpr ⟨each_nonterminal.mp hdrawn, hreach⟩,
        List.forall_mem_cons.mpr ⟨hfirst, List.forall_mem_cons.mpr ⟨hitem, hrest⟩⟩⟩

end Expr

namespace Rule

variable {g : Grammar} {rule : Rule} {rules : List Rule} {numbering : Numbering}

theorem each_productive_binarize (hwf : rule.rhs.WellFormed)
    (hrules : ∀ r ∈ (rule.binarize numbering).1, r ∈ g.rules)
    (hrhs : rule.rhs.Each g.Productive) :
    ∀ r ∈ (rule.binarize numbering).1, r.rhs.Each g.Productive := by
  obtain ⟨lhs, rhs⟩ := rule
  cases rhs with
  | seq items =>
    obtain ⟨first, rest, hlifted, -, heq⟩ := binarize_seq hwf lhs numbering
    rw [heq] at hrules ⊢
    obtain ⟨hlift, hpairs⟩ := List.forall_mem_append.mp hrules
    have hitems := Expr.each_productive_liftTerminals hlift (Expr.each_seq.mp hrhs)
    rw [hlifted] at hitems
    obtain ⟨hfirst, hrest⟩ := List.forall_mem_cons.mp hitems
    refine List.forall_mem_append.mpr
      ⟨fun r hr => ?_, Expr.each_productive_pairUp hpairs hfirst hrest⟩
    obtain ⟨-, token, -, hterminal⟩ := Expr.draws_of_mem_liftTerminals r hr
    rw [hterminal]
    exact Expr.each_terminal token
  | terminal | nonterminal | empty | alt => exact List.forall_mem_singleton.mpr hrhs

theorem exists_mem_binarize (hwf : rule.rhs.WellFormed) (numbering : Numbering) :
    ∃ r ∈ (rule.binarize numbering).1, r.lhs = rule.lhs := by
  obtain ⟨lhs, rhs⟩ := rule
  cases rhs with
  | seq items =>
    obtain ⟨first, rest, -, -, heq⟩ := binarize_seq hwf lhs numbering
    rw [heq]
    obtain ⟨r, hr, hlhs⟩ := Expr.exists_mem_pairUp lhs first rest
      (Expr.liftTerminals items numbering).numbering
    exact ⟨r, List.mem_append_right _ hr, hlhs⟩
  | terminal | nonterminal | empty | alt => exact ⟨_, List.mem_singleton_self _, rfl⟩

theorem reachable_binarize (hwf : rule.rhs.WellFormed)
    (hrules : ∀ r ∈ (rule.binarize numbering).1, r ∈ g.rules) (hlhs : g.Reachable rule.lhs) :
    (∀ r ∈ (rule.binarize numbering).1, g.Reachable r.lhs) ∧ rule.rhs.Each g.Reachable := by
  obtain ⟨lhs, rhs⟩ := rule
  cases rhs with
  | seq items =>
    obtain ⟨first, rest, hlifted, -, heq⟩ := binarize_seq hwf lhs numbering
    rw [heq] at hrules ⊢
    obtain ⟨-, hpairs⟩ := List.forall_mem_append.mp hrules
    obtain ⟨hpairs, hitems⟩ := Expr.reachable_pairUp hpairs hlhs
    rw [← hlifted] at hitems
    obtain ⟨hlift, hitems⟩ := Expr.reachable_liftTerminals hitems
    exact ⟨List.forall_mem_append.mpr ⟨hlift, hpairs⟩, Expr.each_seq.mpr hitems⟩
  | terminal | nonterminal | empty | alt =>
    have hrule := List.forall_mem_singleton.mp hrules
    exact ⟨List.forall_mem_singleton.mpr hlhs, fun s hs => .rule hrule hlhs hs⟩

/-- Every rule is broken up with some numbering. -/
theorem exists_numbering_of_mem (hr : rule ∈ rules) (numbering : Numbering) :
    ∃ later, (rule.binarize later).1 ⊆ (binarizeAll rules numbering).1 := by
  induction rules generalizing numbering with
  | nil => simp at hr
  | cons first rules ih =>
    rcases List.mem_cons.mp hr with rfl | hr
    · exact ⟨numbering, List.subset_append_left _ _⟩
    · obtain ⟨later, hsub⟩ := ih hr (first.binarize numbering).2
      exact ⟨later, List.subset_append_of_subset_right _ hsub⟩

end Rule

namespace Grammar

variable {g : Grammar} {symbol : Nonterminal} {rule : Rule}

/-- The start symbol is not lost when its rules are broken up. -/
theorem start?_binarize : g.binarize.start? = g.start? := by
  rw [binarize]
  cases hstart : g.start? with
  | none =>
    have hnil := start?_eq_none_iff.mp hstart
    simp [rooted, pairs, hnil, Rule.binarizeAll, start?]
  | some start =>
    obtain ⟨rule, hr, rfl⟩ := exists_rule_of_start? hstart
    obtain ⟨later, hsub⟩ := Rule.exists_numbering_of_mem hr (.start g.names)
    obtain ⟨r, hr', hlhs⟩ := Rule.exists_mem_binarize (g.wellFormed rule hr) later
    exact (rooted_of_exists _ ⟨r, hsub hr', hlhs⟩).2

theorem binarize_rules_ne_nil (h : g.rules ≠ []) : g.binarize.rules ≠ [] := by
  rwa [ne_eq, ← start?_eq_none_iff, start?_binarize, start?_eq_none_iff]

theorem exists_numbering_of_mem_rules (hr : rule ∈ g.rules) :
    ∃ later, (rule.binarize later).1 ⊆ g.binarize.rules := by
  obtain ⟨later, hsub⟩ := Rule.exists_numbering_of_mem hr (.start g.names)
  have hne := binarize_rules_ne_nil (List.ne_nil_of_mem hr)
  exact ⟨later, fun r hr => (mem_rooted _ hne).mpr (hsub hr)⟩

theorem productive_binarize (hs : g.Productive symbol) : g.binarize.Productive symbol := by
  induction hs with
  | @rule rule mem _ ih =>
    obtain ⟨later, hsub⟩ := exists_numbering_of_mem_rules mem
    obtain ⟨r, hr, hlhs⟩ := Rule.exists_mem_binarize (g.wellFormed rule mem) later
    rw [← hlhs]
    exact .rule (hsub hr) (Rule.each_productive_binarize (g.wellFormed rule mem) hsub ih r hr)

theorem reachable_binarize (hs : g.Reachable symbol) : g.binarize.Reachable symbol := by
  induction hs with
  | start h => exact .start (start?_binarize.trans h)
  | @rule rule symbol mem _ mentioned ih =>
    obtain ⟨later, hsub⟩ := exists_numbering_of_mem_rules mem
    exact (Rule.reachable_binarize (g.wellFormed rule mem) hsub ih).2 symbol mentioned

theorem isClean_binarize (h : g.IsClean) : g.binarize.IsClean where
  productive r hr := by
    obtain ⟨rule, hrule, later, -, hr, hsub⟩ := exists_of_mem_binarize hr
    exact Rule.each_productive_binarize (g.wellFormed rule hrule) hsub
      (fun s hs => productive_binarize (h.productive rule hrule s hs)) r hr
  reachable r hr := by
    obtain ⟨rule, hrule, later, -, hr, hsub⟩ := exists_of_mem_binarize hr
    exact (Rule.reachable_binarize (g.wellFormed rule hrule) hsub
      (reachable_binarize (h.reachable rule hrule))).1 r hr

theorem isClean_toCnf (a : Arithmetic) (g : Grammar) : (g.toCnf a).IsClean :=
  isClean_binarize isClean_usefulPart

end Grammar

end ContextFree
