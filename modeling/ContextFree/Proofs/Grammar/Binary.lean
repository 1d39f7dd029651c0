import ContextFree.Grammar.Binary
import ContextFree.Proofs.Grammar.Extension

/-!
# Breaking sequences into pairs

A symbol drawn for a terminal derives just that terminal, and one drawn for a fold derives what the
folded items do. With these languages the rules for pairs hold, and they imply the rule that is
broken up, so all old symbols derive what they did (`languages_pairs`).

Whatever is written for a rule is one of its pieces (`Rule.IsPiece`): the rule itself if it is not a
sequence, otherwise a rule for a terminal or a pair.
-/

namespace ContextFree

namespace Numbering

variable {numbering : Numbering} {symbol : Nonterminal}

theorem terminal_notHas (numbering : Numbering) :
    ¬numbering.names.Has numbering.terminal.1 :=
  Names.numbered_notHas

theorem has_terminal_iff : numbering.terminal.2.names.Has symbol ↔
    symbol = numbering.terminal.1 ∨ numbering.names.Has symbol :=
  Names.has_numbered_iff

theorem fold_notHas (numbering : Numbering) : ¬numbering.names.Has numbering.fold.1 :=
  Names.numbered_notHas

theorem has_fold_iff : numbering.fold.2.names.Has symbol ↔
    symbol = numbering.fold.1 ∨ numbering.names.Has symbol :=
  Names.has_numbered_iff

theorem le_terminal : numbering.names.Le numbering.terminal.2.names :=
  fun _ hs => has_terminal_iff.mpr (.inr hs)

theorem le_fold : numbering.names.Le numbering.fold.2.names :=
  fun _ hs => has_fold_iff.mpr (.inr hs)

/-- A symbol that is drawn at this point or later. -/
def Draws (numbering : Numbering) (symbol : Nonterminal) : Prop :=
  ∃ later : Numbering, numbering.names.Le later.names ∧
    (symbol = later.terminal.1 ∨ symbol = later.fold.1)

theorem Draws.of_le {later : Numbering} (h : later.Draws symbol)
    (hle : numbering.names.Le later.names) : numbering.Draws symbol := by
  obtain ⟨last, hle', h⟩ := h
  exact ⟨last, hle.trans hle', h⟩

theorem Draws.notHas (h : numbering.Draws symbol) : ¬numbering.names.Has symbol := by
  obtain ⟨later, hle, rfl | rfl⟩ := h
  · exact fun hs => later.terminal_notHas (hle _ hs)
  · exact fun hs => later.fold_notHas (hle _ hs)

end Numbering

theorem Names.agree_update {names : Names} {symbol : Nonterminal} (h : ¬names.Has symbol)
    (I : Valuation) (l : Language Token) : names.Agree I (Function.update I symbol l) :=
  fun other ho => Function.update_of_ne (fun heq : other = symbol => h (heq ▸ ho)) _ _

namespace Expr

variable {items : List Expr} {lhs : Nonterminal} {first : Expr} {numbering : Numbering}
  {I : Valuation}

/-! ## Terminals -/

theorem liftTerminals_terminal (token : Token) :
    liftTerminals (.terminal token :: items) numbering =
      ⟨.nonterminal numbering.terminal.1 :: (liftTerminals items numbering.terminal.2).items,
        ⟨numbering.terminal.1, .terminal token⟩ :: (liftTerminals items numbering.terminal.2).rules,
        (liftTerminals items numbering.terminal.2).numbering⟩ :=
  rfl

theorem liftTerminals_of_terminal?_eq_none {item : Expr} (h : item.terminal? = none) :
    liftTerminals (item :: items) numbering =
      ⟨item :: (liftTerminals items numbering).items, (liftTerminals items numbering).rules,
        (liftTerminals items numbering).numbering⟩ := by
  cases item with
  | terminal => simp [terminal?] at h
  | nonterminal | empty | seq | alt => rfl

@[simp] theorem length_liftTerminals :
    (liftTerminals items numbering).items.length = items.length := by
  induction items generalizing numbering with
  | nil => rfl
  | cons item items ih =>
    cases hitem : item.terminal? with
    | some token =>
      obtain rfl := terminal?_eq_some_iff.mp hitem
      simp [liftTerminals_terminal, ih]
    | none => simp [liftTerminals_of_terminal?_eq_none hitem, ih]

theorem prod_denote_le_of_liftTerminals
    (h : ∀ rule ∈ (liftTerminals items numbering).rules, rule.Holds I) :
    (items.map (denote spell I)).prod ≤
      ((liftTerminals items numbering).items.map (denote spell I)).prod := by
  induction items generalizing numbering with
  | nil => exact le_rfl
  | cons item items ih =>
    cases hitem : item.terminal? with
    | some token =>
      obtain rfl := terminal?_eq_some_iff.mp hitem
      rw [liftTerminals_terminal] at h ⊢
      obtain ⟨hfirst, hrest⟩ := List.forall_mem_cons.mp h
      rw [List.map_cons, List.map_cons, List.prod_cons, List.prod_cons]
      exact mul_le_mul' hfirst (ih hrest)
    | none =>
      rw [liftTerminals_of_terminal?_eq_none hitem] at h ⊢
      rw [List.map_cons, List.map_cons, List.prod_cons, List.prod_cons]
      exact mul_le_mul_right (ih h) _

/-- The terminals are out of the way for whatever rules are written with the lifted items. -/
theorem extends_liftTerminals {rules : List Rule} {names : Names}
    (hitems : ∀ item ∈ items, numbering.names.Covers item)
    (next : ∀ J, numbering.names.Agree I J →
      numbering.names.Le (liftTerminals items numbering).numbering.names →
      (∀ item ∈ (liftTerminals items numbering).items,
        (liftTerminals items numbering).numbering.names.Covers item) →
      ((liftTerminals items numbering).items.map (denote spell J)).prod =
        (items.map (denote spell I)).prod →
      (liftTerminals items numbering).numbering.names.Extends J rules names) :
    numbering.names.Extends I ((liftTerminals items numbering).rules ++ rules) names := by
  induction items generalizing numbering I with
  | nil => exact next I (fun _ _ => rfl) (fun _ => id) (by simp [liftTerminals]) rfl
  | cons item items ih =>
    obtain ⟨hitem, hrest⟩ := List.forall_mem_cons.mp hitems
    cases hterminal : item.terminal? with
    | some token =>
      obtain rfl := terminal?_eq_some_iff.mp hterminal
      rw [liftTerminals_terminal] at next ⊢
      have hle : numbering.names.Le numbering.terminal.2.names := Numbering.le_terminal
      have hdrawn : numbering.terminal.2.names.Has numbering.terminal.1 :=
        Numbering.has_terminal_iff.mpr (.inl rfl)
      have hagree := Names.agree_update numbering.terminal_notHas I (spell token)
      refine .of_drawn hle hagree (.cons hdrawn ?_ ?_ ?_)
      · simp [Names.Covers, mem_nonterminals]
      · exact (Function.update_self (f := I) numbering.terminal.1 (spell token)).ge
      refine ih (fun i hi => (hrest i hi).mono hle) fun J hJ hle' hcovers hprod => ?_
      refine next J (hagree.trans hle hJ) (hle.trans hle') ?_ ?_
      · exact List.forall_mem_cons.mpr ⟨Names.covers_nonterminal.mpr (hle' _ hdrawn), hcovers⟩
      have hsymbol : J numbering.terminal.1 = spell token := by
        rw [hJ _ hdrawn, Function.update_self]
      rw [List.map_cons, List.map_cons, List.prod_cons, List.prod_cons, hprod, denote_nonterminal,
        hsymbol, List.map_congr_left fun i hi => hagree.denote_eq (hrest i hi), denote_terminal]
    | none =>
      rw [liftTerminals_of_terminal?_eq_none hterminal] at next ⊢
      refine ih hrest fun J hJ hle hcovers hprod => next J hJ hle ?_ ?_
      · exact List.forall_mem_cons.mpr ⟨hitem.mono hle, hcovers⟩
      · rw [List.map_cons, List.map_cons, List.prod_cons, List.prod_cons, hprod,
          hJ.denote_eq hitem]

/-! ## Folds -/

theorem pairUp_cons_cons (item next : Expr) :
    pairUp lhs first (item :: next :: items) numbering =
      (⟨numbering.fold.1, concat [first, item]⟩ ::
        (pairUp lhs (.nonterminal numbering.fold.1) (next :: items) numbering.fold.2).1,
      (pairUp lhs (.nonterminal numbering.fold.1) (next :: items) numbering.fold.2).2) := by
  rw [pairUp]
  simp

theorem denote_le_of_pairUp (h : ∀ rule ∈ (pairUp lhs first items numbering).1, rule.Holds I) :
    first.denote spell I * (items.map (denote spell I)).prod ≤ I lhs := by
  induction items generalizing first numbering with
  | nil => simpa [Rule.Holds, pairUp] using h
  | cons item items ih =>
    cases items with
    | nil => simpa [Rule.Holds, pairUp] using h
    | cons next items =>
      rw [pairUp_cons_cons] at h
      obtain ⟨hfold, hrest⟩ := List.forall_mem_cons.mp h
      rw [Rule.Holds, denote_concat] at hfold
      rw [List.map_cons, List.prod_cons, ← mul_assoc]
      refine (mul_le_mul_left ?_ _).trans (ih hrest)
      simpa using hfold

theorem extends_pairUp (hlhs : numbering.names.Has lhs) (hfirst : numbering.names.Covers first)
    (hitems : ∀ item ∈ items, numbering.names.Covers item)
    (h : first.denote spell I * (items.map (denote spell I)).prod ≤ I lhs) :
    numbering.names.Extends I (pairUp lhs first items numbering).1
      (pairUp lhs first items numbering).2.names := by
  induction items generalizing first numbering I with
  | nil => exact .single hlhs hfirst (by simpa [Rule.Holds] using h)
  | cons item items ih =>
    have hpair : ∀ e ∈ [first, item], numbering.names.Covers e :=
      List.forall_mem_cons.mpr ⟨hfirst, by simpa using hitems item (by simp)⟩
    cases items with
    | nil => exact .single hlhs (Names.covers_concat hpair) (by simpa [Rule.Holds] using h)
    | cons next items =>
      obtain ⟨-, hrest⟩ := List.forall_mem_cons.mp hitems
      have hle : numbering.names.Le numbering.fold.2.names := Numbering.le_fold
      have hdrawn : numbering.fold.2.names.Has numbering.fold.1 :=
        Numbering.has_fold_iff.mpr (.inl rfl)
      have hagree := Names.agree_update numbering.fold_notHas I
        ((concat [first, item]).denote spell I)
      rw [pairUp_cons_cons]
      refine .of_drawn hle hagree
        (.cons hdrawn ((Names.covers_concat hpair).mono hle) ?_ (ih (hle _ hlhs)
          (Names.covers_nonterminal.mpr hdrawn) (fun i hi => (hrest i hi).mono hle) ?_))
      · rw [Rule.Holds, hagree.denote_eq (Names.covers_concat hpair)]
        exact (Function.update_self (f := I) numbering.fold.1 _).ge
      rw [denote_nonterminal, Function.update_self, hagree _ hlhs,
        List.map_congr_left fun i hi => hagree.denote_eq (hrest i hi), denote_concat]
      simpa [mul_assoc] using h

end Expr

namespace Rule

variable {rule : Rule} {rules : List Rule} {numbering : Numbering} {I : Valuation}

theorem binarize_of_not_isSequence (h : ¬rule.isSequence) :
    rule.binarize numbering = ([rule], numbering) := by
  rw [binarize]
  split
  · next items heq => simp [isSequence, heq, Expr.isSeq] at h
  · rfl

/-- A sequence is broken up after its terminals are lifted. -/
theorem binarize_seq {items : List Expr} (h : (Expr.seq items).WellFormed) (lhs : Nonterminal)
    (numbering : Numbering) : ∃ first rest,
      (Expr.liftTerminals items numbering).items = first :: rest ∧ rest ≠ [] ∧
      binarize ⟨lhs, .seq items⟩ numbering =
        ((Expr.liftTerminals items numbering).rules ++ (Expr.pairUp lhs first rest
          (Expr.liftTerminals items numbering).numbering).1,
        (Expr.pairUp lhs first rest (Expr.liftTerminals items numbering).numbering).2) := by
  have hlen : (Expr.liftTerminals items numbering).items.length = items.length :=
    Expr.length_liftTerminals
  have two_le := (Expr.wellFormed_seq.mp h).1
  simp only [binarize]
  match hlifted : (Expr.liftTerminals items numbering).items with
  | [] => simp [hlifted] at hlen; omega
  | [_] => simp [hlifted] at hlen; omega
  | first :: second :: rest => exact ⟨first, second :: rest, rfl, by simp, rfl⟩

theorem holds_of_binarize (hwf : rule.rhs.WellFormed)
    (h : ∀ r ∈ (rule.binarize numbering).1, r.Holds I) : rule.Holds I := by
  by_cases hseq : rule.isSequence
  · obtain ⟨lhs, rhs⟩ := rule
    cases rhs with
    | seq items =>
      obtain ⟨first, rest, hlifted, -, heq⟩ := binarize_seq hwf lhs numbering
      rw [heq] at h
      have hlift := Expr.prod_denote_le_of_liftTerminals
        fun r hr => h r (List.mem_append_left _ hr)
      rw [hlifted, List.map_cons, List.prod_cons] at hlift
      rw [Holds, Expr.denote_seq]
      exact hlift.trans (Expr.denote_le_of_pairUp fun r hr => h r (List.mem_append_right _ hr))
    | terminal | nonterminal | empty | alt => simp [isSequence, Expr.isSeq] at hseq
  · rw [binarize_of_not_isSequence hseq] at h
    exact h rule (List.mem_singleton_self rule)

theorem extends_binarize (hwf : rule.rhs.WellFormed) (hlhs : numbering.names.Has rule.lhs)
    (hrhs : numbering.names.Covers rule.rhs) (h : rule.Holds I) :
    numbering.names.Extends I (rule.binarize numbering).1 (rule.binarize numbering).2.names := by
  by_cases hseq : rule.isSequence
  · obtain ⟨lhs, rhs⟩ := rule
    cases rhs with
    | seq items =>
      obtain ⟨first, rest, hlifted, -, heq⟩ := binarize_seq hwf lhs numbering
      rw [heq]
      refine Expr.extends_liftTerminals (Names.covers_seq.mp hrhs) fun J hJ hle hcovers hprod => ?_
      rw [hlifted] at hcovers hprod
      obtain ⟨hfirst, hrest⟩ := List.forall_mem_cons.mp hcovers
      refine Expr.extends_pairUp (hle _ hlhs) hfirst hrest ?_
      rw [← List.prod_cons, ← List.map_cons, hprod, hJ _ hlhs]
      simpa [Holds] using h
    | terminal | nonterminal | empty | alt => simp [isSequence, Expr.isSeq] at hseq
  · rw [binarize_of_not_isSequence hseq]
    exact .single hlhs hrhs h

theorem holds_of_binarizeAll (hwf : ∀ rule ∈ rules, rule.rhs.WellFormed)
    (h : ∀ r ∈ (binarizeAll rules numbering).1, r.Holds I) : ∀ rule ∈ rules, rule.Holds I := by
  induction rules generalizing numbering with
  | nil => simp
  | cons rule rules ih =>
    obtain ⟨hrule, hrules⟩ := List.forall_mem_cons.mp hwf
    rw [binarizeAll] at h
    exact List.forall_mem_cons.mpr
      ⟨holds_of_binarize hrule fun r hr => h r (List.mem_append_left _ hr),
        ih hrules fun r hr => h r (List.mem_append_right _ hr)⟩

theorem extends_binarizeAll (hwf : ∀ rule ∈ rules, rule.rhs.WellFormed)
    (hcovers : ∀ rule ∈ rules, numbering.names.Has rule.lhs ∧ numbering.names.Covers rule.rhs)
    (h : ∀ rule ∈ rules, rule.Holds I) :
    numbering.names.Extends I (binarizeAll rules numbering).1
      (binarizeAll rules numbering).2.names := by
  induction rules generalizing numbering I with
  | nil => exact .nil
  | cons rule rules ih =>
    obtain ⟨hwfrule, hwf⟩ := List.forall_mem_cons.mp hwf
    obtain ⟨⟨hlhs, hrhs⟩, hcovers⟩ := List.forall_mem_cons.mp hcovers
    obtain ⟨hrule, h⟩ := List.forall_mem_cons.mp h
    rw [binarizeAll]
    have first := extends_binarize hwfrule hlhs hrhs hrule
    refine first.append fun J hJ => ih hwf (fun r hr => ?_) fun r hr => ?_
    · exact ⟨first.le _ (hcovers r hr).1, (hcovers r hr).2.mono first.le⟩
    · exact hJ.holds (hcovers r hr) (h r hr)

end Rule

/-! ## Pieces -/

namespace Expr

variable {items : List Expr} {e first left right : Expr} {lhs : Nonterminal}
  {start numbering : Numbering} {rule : Rule}

/-- What a pair is made of: an item other than a terminal, or a new symbol. -/
inductive IsPart (items : List Expr) (numbering : Numbering) : Expr → Prop where
  | item {e : Expr} (mem : e ∈ items) (factor : e.isFactor) (not_terminal : e.terminal? = none) :
      IsPart items numbering e
  | drawn {symbol : Nonterminal} (draws : numbering.Draws symbol) :
      IsPart items numbering (.nonterminal symbol)

theorem IsPart.isFactor (h : e.IsPart items numbering) : e.isFactor := by
  cases h with
  | item _ factor _ => exact factor
  | drawn => rfl

theorem IsPart.terminal?_eq_none (h : e.IsPart items numbering) : e.terminal? = none := by
  cases h with
  | item _ _ not_terminal => exact not_terminal
  | drawn => rfl

theorem concat_pair (hleft : left.isFactor) (hright : right.isFactor) :
    concat [left, right] = .seq [left, right] := by
  cases left <;> cases right <;> first | rfl | simp [Expr.isFactor] at hleft hright

/-- Only terminals are replaced, and their places are taken by the new symbols. -/
theorem mem_items_liftTerminals : e ∈ (liftTerminals items numbering).items ↔
    (e ∈ items ∧ e.terminal? = none) ∨
      ∃ rule ∈ (liftTerminals items numbering).rules, e = .nonterminal rule.lhs := by
  induction items generalizing numbering with
  | nil => simp [liftTerminals]
  | cons item items ih =>
    cases hterminal : item.terminal? with
    | some token =>
      obtain rfl := terminal?_eq_some_iff.mp hterminal
      have hne : ¬(e = .terminal token ∧ e.terminal? = none) := by
        rintro ⟨rfl, h⟩
        simp [terminal?] at h
      rw [liftTerminals_terminal, List.mem_cons, List.mem_cons, List.exists_mem_cons_iff,
        or_and_right, or_iff_right hne, ih]
      exact or_left_comm
    | none =>
      have hself : e = item ↔ e = item ∧ e.terminal? = none :=
        iff_self_and.mpr fun heq => heq ▸ hterminal
      rw [liftTerminals_of_terminal?_eq_none hterminal, List.mem_cons, List.mem_cons, or_and_right,
        ← hself, or_assoc, ih]

theorem draws_of_mem_liftTerminals : ∀ rule ∈ (liftTerminals items numbering).rules,
    numbering.Draws rule.lhs ∧ ∃ token, .terminal token ∈ items ∧ rule.rhs = .terminal token := by
  induction items generalizing numbering with
  | nil => simp [liftTerminals]
  | cons item items ih =>
    have hlater {token : Token} : .terminal token ∈ items → .terminal token ∈ item :: items :=
      List.mem_cons_of_mem item
    cases hterminal : item.terminal? with
    | some token =>
      obtain rfl := terminal?_eq_some_iff.mp hterminal
      rw [liftTerminals_terminal]
      refine List.forall_mem_cons.mpr ⟨⟨⟨numbering, fun _ => id, .inl rfl⟩, token, ?_⟩, ?_⟩
      · exact ⟨List.mem_cons_self, rfl⟩
      · intro rule hr
        obtain ⟨hdraws, other, hmem, hrhs⟩ := ih rule hr
        exact ⟨hdraws.of_le Numbering.le_terminal, other, hlater hmem, hrhs⟩
    | none =>
      rw [liftTerminals_of_terminal?_eq_none hterminal]
      intro rule hr
      obtain ⟨hdraws, other, hmem, hrhs⟩ := ih rule hr
      exact ⟨hdraws, other, hlater hmem, hrhs⟩

theorem isPart_of_mem_liftTerminals (hfactor : ∀ item ∈ items, item.isFactor) :
    ∀ e ∈ (liftTerminals items numbering).items, e.IsPart items numbering := by
  intro e he
  rcases mem_items_liftTerminals.mp he with ⟨hi, hterminal⟩ | ⟨rule, hr, rfl⟩
  · exact .item hi (hfactor e hi) hterminal
  · exact .drawn (draws_of_mem_liftTerminals rule hr).1

theorem le_liftTerminals : numbering.names.Le (liftTerminals items numbering).numbering.names := by
  induction items generalizing numbering with
  | nil => exact fun _ => id
  | cons item items ih =>
    cases hitem : item.terminal? with
    | some token =>
      obtain rfl := terminal?_eq_some_iff.mp hitem
      exact Numbering.le_terminal.trans ih
    | none =>
      rw [liftTerminals_of_terminal?_eq_none hitem]
      exact ih

theorem exists_of_mem_pairUp {parts : List Expr} (hle : start.names.Le numbering.names)
    (hfirst : first.IsPart items start) (hparts : ∀ part ∈ parts, part.IsPart items start)
    (hne : parts ≠ []) : ∀ rule ∈ (pairUp lhs first parts numbering).1,
      (rule.lhs = lhs ∨ start.Draws rule.lhs) ∧ ∃ left right,
        rule.rhs = .seq [left, right] ∧ left.IsPart items start ∧ right.IsPart items start := by
  induction parts generalizing first numbering with
  | nil => exact absurd rfl hne
  | cons part parts ih =>
    obtain ⟨hpart, hrest⟩ := List.forall_mem_cons.mp hparts
    have hpair : concat [first, part] = .seq [first, part] :=
      concat_pair hfirst.isFactor hpart.isFactor
    cases parts with
    | nil => exact List.forall_mem_singleton.mpr ⟨.inl rfl, first, part, hpair, hfirst, hpart⟩
    | cons next parts =>
      have hdraws : start.Draws numbering.fold.1 := ⟨numbering, hle, .inr rfl⟩
      rw [pairUp_cons_cons]
      exact List.forall_mem_cons.mpr ⟨⟨.inr hdraws, first, part, hpair, hfirst, hpart⟩,
        ih (hle.trans Numbering.le_fold) (.drawn hdraws) hrest (List.cons_ne_nil _ _)⟩

theorem le_pairUp : numbering.names.Le (pairUp lhs first items numbering).2.names := by
  induction items generalizing first numbering with
  | nil => exact fun _ => id
  | cons item items ih =>
    cases items with
    | nil => exact fun _ => id
    | cons next items =>
      rw [pairUp_cons_cons]
      exact Numbering.le_fold.trans ih

end Expr

namespace Rule

variable {rule r : Rule} {rules : List Rule} {numbering : Numbering}

/-- The rules that are written for a rule. -/
inductive IsPiece (rule : Rule) (numbering : Numbering) : Rule → Prop where
  | whole (not_sequence : ¬rule.isSequence) : IsPiece rule numbering rule
  | terminal {symbol : Nonterminal} {token : Token} (draws : numbering.Draws symbol)
      (mem : .terminal token ∈ rule.rhs.items) : IsPiece rule numbering ⟨symbol, .terminal token⟩
  | pair {lhs : Nonterminal} {left right : Expr} (lhs_eq : lhs = rule.lhs ∨ numbering.Draws lhs)
      (isPart_left : left.IsPart rule.rhs.items numbering)
      (isPart_right : right.IsPart rule.rhs.items numbering) :
      IsPiece rule numbering ⟨lhs, .seq [left, right]⟩

theorem isPiece_of_mem_binarize (hwf : rule.rhs.WellFormed) (hr : r ∈ (rule.binarize numbering).1) :
    rule.IsPiece numbering r := by
  obtain ⟨lhs, rhs⟩ := rule
  cases rhs with
  | seq items =>
    obtain ⟨first, rest, hlifted, hne, heq⟩ := binarize_seq hwf lhs numbering
    rw [heq] at hr
    obtain ⟨symbol, rhs⟩ := r
    rcases List.mem_append.mp hr with hr | hr
    · obtain ⟨hdraws, token, hmem, hrhs⟩ := Expr.draws_of_mem_liftTerminals _ hr
      obtain rfl : rhs = .terminal token := hrhs
      exact .terminal hdraws hmem
    · have hparts : ∀ e ∈ (Expr.liftTerminals items numbering).items, e.IsPart items numbering :=
        Expr.isPart_of_mem_liftTerminals (Expr.wellFormed_seq.mp hwf).2.1
      rw [hlifted] at hparts
      obtain ⟨hfirst, hrest⟩ := List.forall_mem_cons.mp hparts
      obtain ⟨hlhs, left, right, hrhs, hleft, hright⟩ :=
        Expr.exists_of_mem_pairUp Expr.le_liftTerminals hfirst hrest hne _ hr
      obtain rfl : rhs = .seq [left, right] := hrhs
      exact .pair hlhs hleft hright
  | terminal | nonterminal | empty | alt =>
    rw [List.mem_singleton.mp hr]
    exact .whole (by simp [isSequence, Expr.isSeq])

theorem le_binarize (hwf : rule.rhs.WellFormed) :
    numbering.names.Le (rule.binarize numbering).2.names := by
  obtain ⟨lhs, rhs⟩ := rule
  cases rhs with
  | seq items =>
    obtain ⟨first, rest, -, -, heq⟩ := binarize_seq hwf lhs numbering
    rw [heq]
    exact Expr.le_liftTerminals.trans Expr.le_pairUp
  | terminal | nonterminal | empty | alt => exact fun _ => id

/-- Each rule comes from one that is broken up, all of whose rules are there. -/
theorem exists_of_mem_binarizeAll (hwf : ∀ rule ∈ rules, rule.rhs.WellFormed)
    (hr : r ∈ (binarizeAll rules numbering).1) :
    ∃ rule ∈ rules, ∃ later, numbering.names.Le later.names ∧ r ∈ (rule.binarize later).1 ∧
      (rule.binarize later).1 ⊆ (binarizeAll rules numbering).1 := by
  induction rules generalizing numbering with
  | nil => simp [binarizeAll] at hr
  | cons rule rules ih =>
    obtain ⟨hrule, hrules⟩ := List.forall_mem_cons.mp hwf
    rcases List.mem_append.mp hr with hr | hr
    · exact ⟨rule, List.mem_cons_self, numbering, fun _ => id, hr, List.subset_append_left _ _⟩
    · obtain ⟨other, ho, later, hle, hr, hsub⟩ := ih hrules hr
      exact ⟨other, List.mem_cons_of_mem rule ho, later, (le_binarize hrule).trans hle, hr,
        List.subset_append_of_subset_right _ hsub⟩

end Rule

namespace Grammar

variable {g : Grammar}

theorem exists_of_mem_binarize {rule : Rule} (hr : rule ∈ g.binarize.rules) : ∃ origin ∈ g.rules,
    ∃ later : Numbering, g.names.Le later.names ∧ rule ∈ (origin.binarize later).1 ∧
      (origin.binarize later).1 ⊆ g.binarize.rules := by
  have hmem {r : Rule} : r ∈ g.binarize.rules ↔ r ∈ g.pairs.1 :=
    mem_rooted _ (List.ne_nil_of_mem hr)
  obtain ⟨origin, horigin, later, hle, hr, hsub⟩ :=
    Rule.exists_of_mem_binarizeAll g.wellFormed (hmem.mp hr)
  exact ⟨origin, horigin, later, hle, hr, fun r hr => hmem.mpr (hsub hr)⟩

theorem extends_pairs :
    (Numbering.start g.names).names.Extends g.languages g.pairs.1 g.pairs.2.names :=
  Rule.extends_binarizeAll g.wellFormed
    (fun _ hr => ⟨has_names_lhs hr, covers_names_rhs hr⟩) fun _ => holds_languages

theorem languages_pairs (wellFormed : ∀ rule ∈ g.pairs.1, rule.rhs.WellFormed)
    {symbol : Nonterminal} (hs : g.names.Has symbol) :
    (ofRules g.pairs.1 wellFormed).languages symbol = g.languages symbol :=
  languages_of_extends _ extends_pairs (fun _ => Rule.holds_of_binarizeAll g.wellFormed) hs

theorem preserves_binarize : g.binarize.Preserves g :=
  preserves_rooted _ (fun h => by simp [pairs, h, Rule.binarizeAll])
    fun _ hs => languages_pairs _ (has_names_start hs)

end Grammar

end ContextFree
