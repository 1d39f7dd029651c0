import ContextFree.Proofs.Grammar.NormalForm

/-!
# What the rules are made of

No transformation invents an atom, except for the empty string and the symbols that it draws, which
are named after old ones or by a letter and a number. So a property of the atoms of a grammar is one
of the atoms of its normal form if such symbols have it, too (`Grammar.eachAtom_toCnf`).
-/

namespace ContextFree

namespace Expr

/-- All atoms of the expression have the property. -/
def EachAtom (p : Expr → Prop) (e : Expr) : Prop :=
  ∀ atom ∈ e.atoms, p atom

variable {p : Expr → Prop} {items : List Expr}

theorem eachAtom_terminal {token : Token} : (terminal token).EachAtom p ↔ p (.terminal token) := by
  simp [EachAtom]

theorem eachAtom_nonterminal {symbol : Nonterminal} :
    (nonterminal symbol).EachAtom p ↔ p (.nonterminal symbol) := by
  simp [EachAtom]

theorem eachAtom_empty : empty.EachAtom p ↔ p .empty := by
  simp [EachAtom]

theorem eachAtom_seq : (seq items).EachAtom p ↔ ∀ item ∈ items, item.EachAtom p := by
  rw [EachAtom, atoms_seq, List.forall_mem_flatMap]
  rfl

theorem eachAtom_alt {alternatives : List Expr} :
    (alt alternatives).EachAtom p ↔ ∀ e ∈ alternatives, e.EachAtom p := by
  rw [EachAtom, atoms_alt, List.forall_mem_flatMap]
  rfl

theorem EachAtom.of_mem_items {e item : Expr} (h : e.EachAtom p) (hi : item ∈ e.items) :
    item.EachAtom p := by
  cases e with
  | seq items => exact eachAtom_seq.mp h item hi
  | terminal | nonterminal | empty | alt => rwa [List.mem_singleton.mp hi]

theorem EachAtom.of_mem_factors {e f : Expr} (h : e.EachAtom p) (hf : f ∈ e.factors) :
    f.EachAtom p := by
  cases e with
  | seq items => exact eachAtom_seq.mp h f hf
  | empty => simp [factors] at hf
  | terminal | nonterminal | alt => rwa [List.mem_singleton.mp hf]

theorem eachAtom_ofFactors {es : List Expr} (hempty : p .empty) (h : ∀ e ∈ es, e.EachAtom p) :
    (ofFactors es).EachAtom p := by
  match es with
  | [] => exact eachAtom_empty.mpr hempty
  | [e] => exact h e (List.mem_singleton_self e)
  | _ :: _ :: _ => exact eachAtom_seq.mpr h

theorem eachAtom_concat {es : List Expr} (hempty : p .empty) (h : ∀ e ∈ es, e.EachAtom p) :
    (concat es).EachAtom p := by
  apply eachAtom_ofFactors hempty
  intro f hf
  obtain ⟨e, he, hf⟩ := List.mem_flatMap.mp hf
  exact (h e he).of_mem_factors hf

end Expr

/-- The left-hand side and all atoms of the right-hand side have the property. -/
def Rule.EachAtom (p : Expr → Prop) (rule : Rule) : Prop :=
  p (.nonterminal rule.lhs) ∧ rule.rhs.EachAtom p

/-- The property holds of the empty string, of all primed symbols if it holds of the plain ones, and
of all numbered symbols. -/
structure HoldsOfNew (p : Expr → Prop) : Prop where
  empty : p .empty
  primed : ∀ base, p (.nonterminal base) → ∀ primes, p (.nonterminal ⟨Names.primedName base primes⟩)
  terminal : ∀ number, p (.nonterminal ⟨Names.numberedName "T" number⟩)
  fold : ∀ number, p (.nonterminal ⟨Names.numberedName "N" number⟩)

variable {p : Expr → Prop} {rule : Rule} {lhs : Nonterminal} {items : List Expr}

/-- The property holds of the empty string, and of any symbol that is drawn for one with the
property while the given names are in use. -/
structure HoldsOfPrimed (names : Names) (p : Expr → Prop) : Prop where
  empty : p .empty
  primed : ∀ later : Names, names.Le later → ∀ base, p (.nonterminal base) →
    p (.nonterminal (later.primed base).1)

variable {names : Names}

theorem HoldsOfNew.holdsOfPrimed (hp : HoldsOfNew p) (names : Names) : HoldsOfPrimed names p :=
  ⟨hp.empty, fun _ _ base hbase => hp.primed base hbase _⟩

theorem HoldsOfPrimed.of_le {later : Names} (hp : HoldsOfPrimed names p) (hle : names.Le later) :
    HoldsOfPrimed later p :=
  ⟨hp.empty, fun _ h => hp.primed _ (hle.trans h)⟩

theorem HoldsOfPrimed.primedAll (hp : HoldsOfPrimed names p) {bases : List Nonterminal}
    (h : ∀ base ∈ bases, p (.nonterminal base)) :
    ∀ symbol ∈ (names.primedAll bases).1, p (.nonterminal symbol) := by
  induction bases generalizing names with
  | nil => simp [Names.primedAll]
  | cons base bases ih =>
    obtain ⟨hbase, hbases⟩ := List.forall_mem_cons.mp h
    have hle : names.Le (names.primed base).2 := fun _ hs => Names.has_primed_iff.mpr (.inr hs)
    exact List.forall_mem_cons.mpr
      ⟨hp.primed names (fun _ => id) base hbase, ih (hp.of_le hle) hbases⟩

/-! ## Splitting -/

namespace Expr

variable {symbols : List Nonterminal}

theorem eachAtom_of_mem_hideChoices (hsymbols : ∀ symbol ∈ symbols, p (.nonterminal symbol))
    (hitems : ∀ item ∈ items, item.EachAtom p) :
    ∀ e ∈ hideChoices symbols items, e.EachAtom p := by
  induction items generalizing symbols with
  | nil => simp [hideChoices]
  | cons item items ih =>
    obtain ⟨hitem, hrest⟩ := List.forall_mem_cons.mp hitems
    cases symbols with
    | nil => exact hitems
    | cons symbol symbols =>
      obtain ⟨hsymbol, hmore⟩ := List.forall_mem_cons.mp hsymbols
      rw [hideChoices]
      split
      · exact List.forall_mem_cons.mpr ⟨eachAtom_nonterminal.mpr hsymbol, ih hmore hrest⟩
      · exact List.forall_mem_cons.mpr ⟨hitem, ih hsymbols hrest⟩

theorem eachAtom_of_mem_splitHidden
    (ih : ∀ item ∈ items, ∀ (lhs : Nonterminal) (names : Names), HoldsOfPrimed names p →
      p (.nonterminal lhs) → ∀ rule ∈ (splitAs lhs item names).1, rule.EachAtom p)
    (hp : HoldsOfPrimed names p) (hsymbols : ∀ symbol ∈ symbols, p (.nonterminal symbol)) :
    ∀ rule ∈ (splitHidden symbols items names).1, rule.EachAtom p := by
  induction items generalizing symbols names with
  | nil => cases symbols <;> simp [splitHidden]
  | cons item items ihs =>
    obtain ⟨hitem, hrest⟩ := List.forall_mem_cons.mp ih
    cases symbols with
    | nil => simp [splitHidden]
    | cons symbol symbols =>
      obtain ⟨hsymbol, hmore⟩ := List.forall_mem_cons.mp hsymbols
      rw [splitHidden]
      split
      · exact List.forall_mem_append.mpr ⟨hitem symbol names hp hsymbol,
          ihs hrest (hp.of_le (le_splitAs symbol item names)) hmore⟩
      · exact ihs hrest hp hsymbols

theorem eachAtom_of_mem_splitAs (hp : HoldsOfPrimed names p) {e : Expr}
    (hlhs : p (.nonterminal lhs)) (h : e.EachAtom p) :
    ∀ rule ∈ (splitAs lhs e names).1, rule.EachAtom p := by
  induction e generalizing lhs names with
  | terminal | nonterminal | empty => exact List.forall_mem_singleton.mpr ⟨hlhs, h⟩
  | seq items ih =>
    have hitems := eachAtom_seq.mp h
    have hdrawn : ∀ symbol ∈ (names.primedAll (List.replicate (items.countP isAlt) lhs)).1,
        p (.nonterminal symbol) :=
      hp.primedAll fun base hb => by rwa [List.eq_of_mem_replicate hb]
    rw [splitAs]
    refine List.forall_mem_cons.mpr
      ⟨⟨hlhs, eachAtom_concat hp.empty (eachAtom_of_mem_hideChoices hdrawn hitems)⟩, ?_⟩
    exact eachAtom_of_mem_splitHidden
      (fun item hi _ _ hp hlhs => ih item hi hp hlhs (hitems item hi))
      (hp.of_le Names.le_primedAll) hdrawn
  | alt alternatives ih =>
    have halts := eachAtom_alt.mp h
    rw [splitAs]
    clear h
    induction alternatives generalizing names with
    | nil => simp [splitAllAs]
    | cons e es ihs =>
      obtain ⟨he, hes⟩ := List.forall_mem_cons.mp halts
      obtain ⟨ihe, ihes⟩ := List.forall_mem_cons.mp ih
      rw [splitAllAs]
      exact List.forall_mem_append.mpr
        ⟨ihe hp hlhs he, ihs ihes (hp.of_le (le_splitAs lhs e names)) hes⟩

end Expr

namespace Rule

theorem eachAtom_of_mem_splitAll (hp : HoldsOfPrimed names p) {rules : List Rule}
    (h : ∀ rule ∈ rules, rule.EachAtom p) : ∀ rule ∈ (splitAll rules names).1, rule.EachAtom p := by
  induction rules generalizing names with
  | nil => simp [splitAll]
  | cons rule rules ih =>
    obtain ⟨hrule, hrules⟩ := List.forall_mem_cons.mp h
    rw [splitAll]
    exact List.forall_mem_append.mpr ⟨Expr.eachAtom_of_mem_splitAs hp hrule.1 hrule.2,
      ih (hp.of_le (Expr.le_splitAs rule.lhs rule.rhs names)) hrules⟩

end Rule

/-! ## Pairs -/

theorem HoldsOfNew.draws (hp : HoldsOfNew p) {numbering : Numbering} {symbol : Nonterminal}
    (h : numbering.Draws symbol) : p (.nonterminal symbol) := by
  obtain ⟨later, -, rfl | rfl⟩ := h
  · exact hp.terminal _
  · exact hp.fold _

theorem Rule.eachAtom_of_mem_binarize (hp : HoldsOfNew p) {numbering : Numbering}
    (hwf : rule.rhs.WellFormed) (h : rule.EachAtom p) :
    ∀ r ∈ (rule.binarize numbering).1, r.EachAtom p := by
  have hpart {part : Expr} (hpart : part.IsPart rule.rhs.items numbering) : part.EachAtom p := by
    cases hpart with
    | item mem => exact h.2.of_mem_items mem
    | drawn draws => exact Expr.eachAtom_nonterminal.mpr (hp.draws draws)
  intro r hr
  cases isPiece_of_mem_binarize hwf hr with
  | whole => exact h
  | terminal draws mem => exact ⟨hp.draws draws, h.2.of_mem_items mem⟩
  | pair lhs_eq hleft hright =>
    refine ⟨?_, Expr.eachAtom_seq.mpr (by simp [hpart hleft, hpart hright])⟩
    rcases lhs_eq with rfl | draws
    · exact h.1
    · exact hp.draws draws

/-! ## Whole grammars -/

namespace Grammar

variable {a : Arithmetic} {g : Grammar}

/-- All atoms of the grammar, left-hand sides included, have the property. -/
def EachAtom (p : Expr → Prop) (g : Grammar) : Prop :=
  ∀ rule ∈ g.rules, rule.EachAtom p

theorem eachAtom_splitAlternatives (hp : HoldsOfPrimed g.names p) (h : g.EachAtom p) :
    g.splitAlternatives.EachAtom p :=
  fun rule hr => Rule.eachAtom_of_mem_splitAll hp h rule (mem_ofRules.mp hr)

theorem eachAtom_eliminateEpsilon (hp : HoldsOfNew p) (h : g.EachAtom p) :
    (g.eliminateEpsilon a).EachAtom p := by
  have hsplit := eachAtom_splitAlternatives (hp.holdsOfPrimed _) h
  have hprime {symbol primed : Nonterminal} (hmem : (symbol, primed) ∈ g.splitAlternatives.primes) :
      p (.nonterminal primed) := by
    refine (hp.holdsOfPrimed _).primedAll (fun base hb => ?_) primed
      (map_snd_primes ▸ List.mem_map_of_mem (f := Prod.snd) hmem)
    obtain ⟨-, rule, hr, hi⟩ := mem_optionalSymbols.mp hb
    exact Expr.eachAtom_nonterminal.mp ((hsplit rule hr).2.of_mem_items hi)
  intro rule hr
  obtain ⟨plain, hplain, items, hvariant, hrhs, hlhs⟩ :=
    exists_variant_of_mem_primedRules (mem_primedRules_of_mem_eliminateEpsilon hr)
  have hitems : (Expr.concat items).EachAtom p := by
    apply Expr.eachAtom_concat hp.empty
    intro item hi
    rcases hvariant.eq_prime_or hi with ⟨_, _, hlookup, rfl⟩ | ⟨hi, -⟩
    · exact Expr.eachAtom_nonterminal.mpr (hprime (lookup_primes_iff.mp hlookup))
    · exact (hsplit plain hplain).2.of_mem_items hi
  refine ⟨?_, hrhs ▸ hitems⟩
  rcases hlhs with hlhs | ⟨hmem, -⟩
  · exact hlhs ▸ (hsplit plain hplain).1
  · exact hprime hmem

theorem eachAtom_eliminateUnits (hp : HoldsOfNew p) (h : g.EachAtom p) :
    g.eliminateUnits.EachAtom p := by
  have hsplit := eachAtom_splitAlternatives (hp.holdsOfPrimed _) h
  intro rule hr
  obtain ⟨origin, horigin, hr⟩ := List.mem_flatMap.mp (rooted_rules_subset _ hr)
  rcases mem_resolveUnit.mp hr with ⟨-, rfl⟩ | ⟨-, -, -, source, -, e, he, -, rfl⟩
  · exact hsplit rule horigin
  · exact ⟨(hsplit origin horigin).1, (hsplit _ he).2⟩

theorem eachAtom_usefulPart (h : g.EachAtom p) : g.usefulPart.EachAtom p :=
  fun rule hr => h rule (usefulPart_rules_subset hr)

theorem eachAtom_binarize (hp : HoldsOfNew p) (h : g.EachAtom p) : g.binarize.EachAtom p := by
  intro rule hr
  obtain ⟨origin, horigin, later, -, hr, -⟩ := exists_of_mem_binarize hr
  exact Rule.eachAtom_of_mem_binarize hp (g.wellFormed origin horigin) (h origin horigin) rule hr

theorem eachAtom_toCnf (hp : HoldsOfNew p) (h : g.EachAtom p) : (g.toCnf a).EachAtom p :=
  eachAtom_binarize hp (eachAtom_usefulPart (eachAtom_eliminateUnits hp
    (eachAtom_eliminateEpsilon hp (eachAtom_splitAlternatives (hp.holdsOfPrimed _) h))))

end Grammar

end ContextFree
