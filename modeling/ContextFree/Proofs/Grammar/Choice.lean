import ContextFree.Grammar.Choice
import ContextFree.Proofs.Expr.ChoiceFree
import ContextFree.Proofs.Grammar.Extension

/-!
# Splitting and joining alternatives

Splitting leaves no choices (`splitAlternatives_isChoiceFree`), does nothing when there are none
(`splitAlternatives_eq_self`), and keeps what every symbol derives; a symbol drawn for a choice
derives what the choice does. Joining keeps what every symbol derives, too.
-/

namespace ContextFree

namespace Expr

variable {lhs : Nonterminal} {names : Names} {symbols : List Nonterminal} {items : List Expr}
  {I : Valuation}

/-! ## The rules of a split imply the rule that is split -/

theorem denote_le_of_splitHidden
    (ih : ∀ item ∈ items, ∀ lhs names, (∀ rule ∈ (splitAs lhs item names).1, rule.Holds I) →
      item.denote spell I ≤ I lhs)
    (h : ∀ rule ∈ (splitHidden symbols items names).1, rule.Holds I) :
    (items.map (denote spell I)).prod ≤
      ((hideChoices symbols items).map (denote spell I)).prod := by
  induction items generalizing symbols names with
  | nil => simp [hideChoices]
  | cons item items ihs =>
    obtain ⟨hitem, hitems⟩ := List.forall_mem_cons.mp ih
    cases symbols with
    | nil => exact le_rfl
    | cons symbol symbols =>
      rw [splitHidden] at h
      rw [hideChoices]
      split at h
      · next halt =>
        rw [if_pos halt, List.map_cons, List.map_cons, List.prod_cons, List.prod_cons]
        exact mul_le_mul' (hitem symbol names fun rule hr => h rule (List.mem_append_left _ hr))
          (ihs hitems fun rule hr => h rule (List.mem_append_right _ hr))
      · next halt =>
        rw [if_neg halt, List.map_cons, List.map_cons, List.prod_cons, List.prod_cons]
        exact mul_le_mul_right (ihs hitems h) _

theorem denote_le_of_splitAs {e : Expr} (h : ∀ rule ∈ (splitAs lhs e names).1, rule.Holds I) :
    e.denote spell I ≤ I lhs := by
  induction e generalizing lhs names with
  | terminal | nonterminal | empty => exact h _ (List.mem_singleton_self _)
  | seq items ih =>
    rw [splitAs] at h
    obtain ⟨hfirst, hhidden⟩ := List.forall_mem_cons.mp h
    rw [Rule.Holds, denote_concat] at hfirst
    rw [denote_seq]
    exact (denote_le_of_splitHidden (fun item hi _ _ => ih item hi) hhidden).trans hfirst
  | alt alternatives ih =>
    rw [splitAs] at h
    intro w hw
    obtain ⟨e, he, hderived⟩ := mem_denote_alt.mp hw
    clear hw
    induction alternatives generalizing names with
    | nil => simp at he
    | cons first rest ihs =>
      rw [splitAllAs] at h
      obtain ⟨ihfirst, ihrest⟩ := List.forall_mem_cons.mp ih
      rcases List.mem_cons.mp he with rfl | he
      · exact ihfirst (fun rule hr => h rule (List.mem_append_left _ hr)) hderived
      · exact ihs ihrest (fun rule hr => h rule (List.mem_append_right _ hr)) he

/-! ## The new symbols derive what they hide -/

theorem prod_denote_hideChoices
    (h : symbols.map I = (items.filter isAlt).map (denote spell I)) :
    ((hideChoices symbols items).map (denote spell I)).prod =
      (items.map (denote spell I)).prod := by
  induction items generalizing symbols with
  | nil => simp [hideChoices]
  | cons item items ih =>
    cases symbols with
    | nil => rfl
    | cons symbol symbols =>
      rw [hideChoices]
      split
      · next halt =>
        rw [List.filter_cons_of_pos halt, List.map_cons, List.map_cons] at h
        obtain ⟨hsymbol, h⟩ := List.cons.inj h
        simp [ih h, hsymbol]
      · next halt =>
        rw [List.filter_cons_of_neg halt] at h
        simp [ih h]

theorem covers_of_mem_hideChoices (hsymbols : ∀ symbol ∈ symbols, names.Has symbol)
    (hitems : ∀ item ∈ items, names.Covers item) :
    ∀ e ∈ hideChoices symbols items, names.Covers e := by
  induction items generalizing symbols with
  | nil => simp [hideChoices]
  | cons item items ih =>
    obtain ⟨hitem, hrest⟩ := List.forall_mem_cons.mp hitems
    cases symbols with
    | nil => exact hitems
    | cons symbol symbols =>
      obtain ⟨hsymbol, hmore⟩ := List.forall_mem_cons.mp hsymbols
      rw [hideChoices]
      split
      · exact List.forall_mem_cons.mpr ⟨Names.covers_nonterminal.mpr hsymbol, ih hmore hrest⟩
      · exact List.forall_mem_cons.mpr ⟨hitem, ih hsymbols hrest⟩

theorem extends_splitHidden
    (ih : ∀ item ∈ items, ∀ (lhs : Nonterminal) (names : Names) (I : Valuation), names.Has lhs →
      names.Covers item → item.denote spell I ≤ I lhs →
      names.Extends I (splitAs lhs item names).1 (splitAs lhs item names).2)
    (hsymbols : ∀ symbol ∈ symbols, names.Has symbol)
    (hitems : ∀ item ∈ items, names.Covers item)
    (h : symbols.map I = (items.filter isAlt).map (denote spell I)) :
    names.Extends I (splitHidden symbols items names).1 (splitHidden symbols items names).2 := by
  induction items generalizing symbols names I with
  | nil => cases symbols <;> exact .nil
  | cons item items ihs =>
    obtain ⟨hitem, hrest⟩ := List.forall_mem_cons.mp hitems
    obtain ⟨ihitem, ihrest⟩ := List.forall_mem_cons.mp ih
    cases symbols with
    | nil => exact .nil
    | cons symbol symbols =>
      rw [splitHidden]
      split
      · next halt =>
        rw [List.filter_cons_of_pos halt, List.map_cons, List.map_cons] at h
        obtain ⟨hsymbol, h⟩ := List.cons.inj h
        obtain ⟨hhas, hmore⟩ := List.forall_mem_cons.mp hsymbols
        have first := ihitem symbol names I hhas hitem hsymbol.ge
        refine first.append fun J hJ => ihs ihrest (fun s hs => first.le s (hmore s hs))
          (fun i hi => (hrest i hi).mono first.le) ?_
        rw [List.map_congr_left fun s hs => hJ s (hmore s hs), h]
        exact List.map_congr_left fun i hi =>
          (hJ.denote_eq (hrest i (List.mem_filter.mp hi).1)).symm
      · next halt =>
        rw [List.filter_cons_of_neg halt] at h
        exact ihs ihrest hsymbols hrest h

theorem extends_splitAs {e : Expr} (hlhs : names.Has lhs) (he : names.Covers e)
    (h : e.denote spell I ≤ I lhs) :
    names.Extends I (splitAs lhs e names).1 (splitAs lhs e names).2 := by
  induction e generalizing lhs names I with
  | terminal | nonterminal | empty => exact .single hlhs he h
  | seq items ih =>
    rw [splitAs]
    have hitems := Names.covers_seq.mp he
    let bases := List.replicate (items.countP isAlt) lhs
    have hlen : (names.primedAll bases).1.length =
        ((items.filter isAlt).map (denote spell I)).length := by
      simp [bases, List.countP_eq_length_filter]
    -- The drawn symbols get the languages of the choices that they hide.
    obtain ⟨J, hJ, hmap⟩ := Names.exists_agree Names.primedAll_nodup
      (fun _ => Names.primedAll_notHas) _ hlen I
    have hle : names.Le (names.primedAll bases).2 := Names.le_primedAll
    have hdrawn : ∀ symbol ∈ (names.primedAll bases).1, (names.primedAll bases).2.Has symbol :=
      fun symbol hs => Names.has_primedAll_iff.mpr (.inl hs)
    have hcovers : ∀ item ∈ items, (names.primedAll bases).2.Covers item :=
      fun item hi => (hitems item hi).mono hle
    have hmapJ : (names.primedAll bases).1.map J = (items.filter isAlt).map (denote spell J) :=
      hmap.trans (List.map_congr_left fun item hi =>
        (hJ.denote_eq (hitems item (List.mem_filter.mp hi).1)).symm)
    refine .of_drawn hle hJ (.cons (hle _ hlhs)
      (Names.covers_concat (covers_of_mem_hideChoices hdrawn hcovers)) ?_
      (extends_splitHidden (fun item hi _ _ _ => ih item hi) hdrawn hcovers hmapJ))
    rw [Rule.Holds, denote_concat, prod_denote_hideChoices hmapJ, ← denote_seq, hJ.denote_eq he,
      hJ _ hlhs]
    exact h
  | alt alternatives ih =>
    rw [splitAs]
    have hle : ∀ e ∈ alternatives, e.denote spell I ≤ I lhs :=
      fun e he _ hw => h (mem_denote_alt.mpr ⟨e, he, hw⟩)
    have hcovers := Names.covers_alt.mp he
    clear h he
    induction alternatives generalizing names I with
    | nil => exact .nil
    | cons e es ihs =>
      obtain ⟨ihe, ihes⟩ := List.forall_mem_cons.mp ih
      obtain ⟨he, hes⟩ := List.forall_mem_cons.mp hle
      obtain ⟨hce, hces⟩ := List.forall_mem_cons.mp hcovers
      rw [splitAllAs]
      have first := ihe hlhs hce he
      refine first.append fun J hJ => ihs ihes (first.le _ hlhs) (fun e' he' => ?_)
        fun e' he' => (hces e' he').mono first.le
      rw [hJ.denote_eq (hces e' he'), hJ _ hlhs]
      exact hes e' he'

/-! ## Names that are in use stay in use -/

theorem le_splitHidden
    (ih : ∀ item ∈ items, ∀ lhs (names : Names), names.Le (splitAs lhs item names).2) :
    names.Le (splitHidden symbols items names).2 := by
  induction items generalizing symbols names with
  | nil => cases symbols <;> exact fun _ => id
  | cons item items ihs =>
    obtain ⟨hitem, hrest⟩ := List.forall_mem_cons.mp ih
    cases symbols with
    | nil => exact fun _ => id
    | cons symbol symbols =>
      rw [splitHidden]
      split
      · exact (hitem symbol names).trans (ihs hrest)
      · exact ihs hrest

theorem le_splitAs (lhs : Nonterminal) (e : Expr) (names : Names) :
    names.Le (splitAs lhs e names).2 := by
  induction e generalizing lhs names with
  | terminal | nonterminal | empty => exact fun _ => id
  | seq items ih =>
    rw [splitAs]
    exact Names.le_primedAll.trans (le_splitHidden ih)
  | alt alternatives ih =>
    rw [splitAs]
    induction alternatives generalizing names with
    | nil => exact fun _ => id
    | cons e es ihs =>
      obtain ⟨ihe, ihes⟩ := List.forall_mem_cons.mp ih
      rw [splitAllAs]
      exact (ihe lhs names).trans (ihs ihes _)

/-! ## No choice is left -/

theorem isChoiceFree_of_isFactor {e : Expr} (h : e.isFactor) (halt : ¬e.isAlt) :
    e.isChoiceFree := by
  cases e with
  | terminal | nonterminal => rfl
  | empty | seq => simp [isFactor] at h
  | alt => simp [isAlt] at halt

theorem isChoiceFree_of_mem_hideChoices (hlen : items.countP isAlt = symbols.length)
    (hitems : ∀ item ∈ items, item.isFactor) :
    ∀ e ∈ hideChoices symbols items, e.isChoiceFree := by
  induction items generalizing symbols with
  | nil => simp [hideChoices]
  | cons item items ih =>
    obtain ⟨hitem, hrest⟩ := List.forall_mem_cons.mp hitems
    cases symbols with
    | nil =>
      rw [List.length_nil, List.countP_eq_zero] at hlen
      exact fun e he => isChoiceFree_of_isFactor (hitems e he) (hlen e he)
    | cons symbol symbols =>
      rw [hideChoices]
      split
      · next halt =>
        rw [List.countP_cons_of_pos halt, List.length_cons, Nat.add_right_cancel_iff] at hlen
        exact List.forall_mem_cons.mpr ⟨rfl, ih hlen hrest⟩
      · next halt =>
        rw [List.countP_cons_of_neg halt] at hlen
        exact List.forall_mem_cons.mpr ⟨isChoiceFree_of_isFactor hitem halt, ih hlen hrest⟩

theorem isChoiceFree_of_mem_splitHidden
    (ih : ∀ item ∈ items, ∀ lhs names, ∀ rule ∈ (splitAs lhs item names).1, rule.rhs.isChoiceFree) :
    ∀ rule ∈ (splitHidden symbols items names).1, rule.rhs.isChoiceFree := by
  induction items generalizing symbols names with
  | nil => cases symbols <;> simp [splitHidden]
  | cons item items ihs =>
    obtain ⟨hitem, hrest⟩ := List.forall_mem_cons.mp ih
    cases symbols with
    | nil => simp [splitHidden]
    | cons symbol symbols =>
      rw [splitHidden]
      split
      · exact fun rule hr => (List.mem_append.mp hr).elim (hitem _ _ rule) (ihs hrest rule)
      · exact ihs hrest

theorem isChoiceFree_of_mem_splitAs {e : Expr} (h : e.WellFormed) :
    ∀ rule ∈ (splitAs lhs e names).1, rule.rhs.isChoiceFree := by
  induction e generalizing lhs names with
  | terminal | nonterminal | empty => simp [splitAs]
  | seq items ih =>
    obtain ⟨-, hfactor, hitems⟩ := wellFormed_seq.mp h
    rw [splitAs]
    refine List.forall_mem_cons.mpr ⟨?_, ?_⟩
    · exact isChoiceFree_concat (isChoiceFree_of_mem_hideChoices (by simp) hfactor)
    · exact isChoiceFree_of_mem_splitHidden fun item hi _ _ => ih item hi (hitems item hi)
  | alt alternatives ih =>
    have halts := (wellFormed_alt.mp h).2
    rw [splitAs]
    clear h
    induction alternatives generalizing names with
    | nil => simp [splitAllAs]
    | cons e es ihs =>
      obtain ⟨he, hes⟩ := List.forall_mem_cons.mp halts
      obtain ⟨ihe, ihes⟩ := List.forall_mem_cons.mp ih
      rw [splitAllAs]
      exact fun rule hr => (List.mem_append.mp hr).elim (ihe he rule) (ihs ihes hes rule)

/-- A right-hand side without choices stays as it is. -/
theorem splitAs_eq_self {e : Expr} (h : e.WellFormed) (hfree : e.isChoiceFree) :
    splitAs lhs e names = ([⟨lhs, e⟩], names) := by
  cases e with
  | terminal | nonterminal | empty => rfl
  | alt => simp at hfree
  | seq items =>
    have hnone : items.countP isAlt = 0 := by
      refine List.countP_eq_zero.mpr fun item hi halt => ?_
      have := h.isAtom_of_mem_items hfree hi
      cases item <;> simp_all [isAtom, isAlt]
    have hconcat : concat (hideChoices [] items) = .seq items := by
      have : hideChoices [] items = items := by cases items <;> rfl
      rw [this]
      exact h.concat_items
    rw [splitAs, hnone]
    simp [Names.primedAll, hconcat, splitHidden]

theorem head?_append {rules : List Rule} (h : rules.head?.map Rule.lhs = some lhs)
    (rest : List Rule) : (rules ++ rest).head?.map Rule.lhs = some lhs := by
  cases rules with
  | nil => simp at h
  | cons rule rules => exact h

/-- The first rule of a split is one for the same symbol. -/
theorem head?_splitAs {e : Expr} (h : e.WellFormed) (lhs : Nonterminal) (names : Names) :
    (splitAs lhs e names).1.head?.map Rule.lhs = some lhs := by
  induction e generalizing lhs names with
  | terminal | nonterminal | empty => rfl
  | seq items => rw [splitAs]; rfl
  | alt alternatives ih =>
    obtain ⟨two_le, halts⟩ := wellFormed_alt.mp h
    cases alternatives with
    | nil => simp at two_le
    | cons first rest =>
      rw [splitAs, splitAllAs]
      exact head?_append (ih first List.mem_cons_self (halts first List.mem_cons_self) lhs names) _

end Expr

namespace Rule

variable {rules : List Rule} {names : Names} {I : Valuation}

theorem holds_of_splitAll (h : ∀ rule ∈ (splitAll rules names).1, rule.Holds I) :
    ∀ rule ∈ rules, rule.Holds I := by
  induction rules generalizing names with
  | nil => simp
  | cons rule rules ih =>
    rw [splitAll] at h
    exact List.forall_mem_cons.mpr
      ⟨Expr.denote_le_of_splitAs fun r hr => h r (List.mem_append_left _ hr),
        ih fun r hr => h r (List.mem_append_right _ hr)⟩

theorem extends_splitAll (hcovers : ∀ rule ∈ rules, names.Has rule.lhs ∧ names.Covers rule.rhs)
    (h : ∀ rule ∈ rules, rule.Holds I) :
    names.Extends I (splitAll rules names).1 (splitAll rules names).2 := by
  induction rules generalizing names I with
  | nil => exact .nil
  | cons rule rules ih =>
    obtain ⟨⟨hlhs, hrhs⟩, hcovers⟩ := List.forall_mem_cons.mp hcovers
    obtain ⟨hrule, h⟩ := List.forall_mem_cons.mp h
    rw [splitAll]
    have first := Expr.extends_splitAs hlhs hrhs hrule
    refine first.append fun J hJ => ih (fun r hr => ?_) fun r hr => ?_
    · exact ⟨first.le _ (hcovers r hr).1, (hcovers r hr).2.mono first.le⟩
    · exact hJ.holds (hcovers r hr) (h r hr)

theorem isChoiceFree_of_mem_splitAll (h : ∀ rule ∈ rules, rule.rhs.WellFormed) :
    ∀ rule ∈ (splitAll rules names).1, rule.rhs.isChoiceFree := by
  induction rules generalizing names with
  | nil => simp [splitAll]
  | cons rule rules ih =>
    obtain ⟨hrule, hrules⟩ := List.forall_mem_cons.mp h
    rw [splitAll]
    exact fun r hr => (List.mem_append.mp hr).elim
      (Expr.isChoiceFree_of_mem_splitAs hrule r) (ih hrules r)

theorem splitAll_eq_self (h : ∀ rule ∈ rules, rule.rhs.WellFormed)
    (hfree : ∀ rule ∈ rules, rule.rhs.isChoiceFree) : splitAll rules names = (rules, names) := by
  induction rules with
  | nil => rfl
  | cons rule rules ih =>
    obtain ⟨hrule, hrules⟩ := List.forall_mem_cons.mp h
    obtain ⟨hrulefree, hfree⟩ := List.forall_mem_cons.mp hfree
    rw [splitAll, Expr.splitAs_eq_self hrule hrulefree, ih hrules hfree]
    rfl

end Rule

namespace Grammar

variable {g : Grammar} {symbol : Nonterminal}

/-- No choice in any right-hand side. -/
def IsChoiceFree (g : Grammar) : Prop :=
  ∀ rule ∈ g.rules, rule.rhs.isChoiceFree

/-! ## Splitting -/

theorem languages_splitAlternatives (h : g.names.Has symbol) :
    g.splitAlternatives.languages symbol = g.languages symbol :=
  languages_of_extends _
    (Rule.extends_splitAll (fun _ hr => ⟨has_names_lhs hr, covers_names_rhs hr⟩)
      fun _ => holds_languages)
    (fun _ => Rule.holds_of_splitAll) h

theorem splitAlternatives_isChoiceFree : g.splitAlternatives.IsChoiceFree :=
  fun rule hr => Rule.isChoiceFree_of_mem_splitAll g.wellFormed rule (mem_ofRules.mp hr)

theorem splitAlternatives_eq_self (h : g.IsChoiceFree) : g.splitAlternatives = g := by
  apply ext
  rw [splitAlternatives, rules_ofRules, Rule.splitAll_eq_self g.wellFormed h]
  exact eraseDups_eq_self g.nodup

theorem start?_splitAlternatives : g.splitAlternatives.start? = g.start? := by
  rw [splitAlternatives, start?_ofRules, start?]
  cases hrules : g.rules with
  | nil => rfl
  | cons rule rules =>
    rw [Rule.splitAll]
    exact Expr.head?_append
      (Expr.head?_splitAs (g.wellFormed rule (by simp [hrules])) rule.lhs g.names) _

theorem preserves_splitAlternatives : g.splitAlternatives.Preserves g :=
  .of_start? start?_splitAlternatives fun _ hs =>
    languages_splitAlternatives (has_names_start hs)

/-! ## Joining -/

theorem languages_joinAlternatives : g.joinAlternatives.languages = g.languages := by
  refine funext fun symbol =>
    le_antisymm (languages_ofRules_le _ ?_ symbol) (languages_le ?_ symbol)
  · intro joined hj w hw
    obtain ⟨symbol, -, rfl⟩ := List.mem_map.mp hj
    rw [Expr.denote_anyOf] at hw
    obtain ⟨l, hl, hw⟩ := mem_list_sum.mp hw
    obtain ⟨e, he, rfl⟩ := List.mem_map.mp hl
    obtain ⟨rule, hr, rfl⟩ := List.mem_map.mp he
    obtain ⟨hr, hlhs⟩ := List.mem_filter.mp hr
    exact of_decide_eq_true hlhs ▸ holds_languages hr hw
  · intro rule hr w hw
    have hlhs : rule.lhs ∈ (g.rules.map Rule.lhs).eraseDups :=
      List.mem_eraseDups.mpr (List.mem_map_of_mem hr)
    refine holds_ofRules _ (List.mem_map_of_mem hlhs) ?_
    rw [Expr.denote_anyOf]
    refine mem_list_sum.mpr ⟨_, List.mem_map_of_mem (List.mem_map_of_mem ?_), hw⟩
    exact List.mem_filter.mpr ⟨hr, by simp⟩

theorem start?_joinAlternatives : g.joinAlternatives.start? = g.start? := by
  rw [joinAlternatives, start?_ofRules, start?, Rule.joinAll]
  cases g.rules <;> simp [List.eraseDups_cons]

theorem preserves_joinAlternatives : g.joinAlternatives.Preserves g :=
  .of_start? start?_joinAlternatives fun _ _ => by rw [languages_joinAlternatives]

end Grammar

end ContextFree
