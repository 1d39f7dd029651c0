import Mathlib.Data.List.Forall2
import ContextFree.Source.Line

/-!
# The format of a line

Which lexemes make up a rule is said here as one would say it in words: a nonterminal, an arrow and
alternatives with bars in between, each of them a row of items. A line is read as a rule if and only
if it has this format, and if it has not, it is rejected where it stops being the start of any line
that has (`Line.decides_rule?`).
-/

namespace ContextFree

/-! ## The format -/

/-- The first character is an uppercase letter of ASCII. -/
def StartsUpper (name : String) : Prop :=
  ∃ c ∈ name.toList.head?, 'A' ≤ c ∧ c ≤ 'Z'

/-- The lexeme stands for the atom when it is part of a right-hand side. -/
inductive Lexeme.IsItem : Lexeme → Expr → Prop where
  | nonterminal {name : String} (upper : StartsUpper name) :
      IsItem (.ident name) (.nonterminal ⟨name⟩)
  | terminal {name : String} (notUpper : ¬StartsUpper name) : IsItem (.ident name) (.terminal name)
  | quoted {text : String} : IsItem (.quoted text) (.terminal text)
  | epsilon : IsItem .epsilon .empty

/-- One or more items, side by side. -/
inductive IsAlternative : List Lexeme → Expr → Prop where
  | concat {lexemes : List Lexeme} {items : List Expr} (ne_nil : lexemes ≠ [])
      (areItems : List.Forall₂ Lexeme.IsItem lexemes items) : IsAlternative lexemes (.concat items)

/-- One or more alternatives with bars in between. -/
inductive AreAlternatives : List Lexeme → List Expr → Prop where
  | last {lexemes : List Lexeme} {e : Expr} (isAlternative : IsAlternative lexemes e) :
      AreAlternatives lexemes [e]
  | more {lexemes rest : List Lexeme} {e : Expr} {es : List Expr}
      (isAlternative : IsAlternative lexemes e) (areAlternatives : AreAlternatives rest es) :
      AreAlternatives (lexemes ++ .pipe :: rest) (e :: es)

/-- A nonterminal, an arrow, and alternatives among which to choose. -/
inductive IsRule : List Lexeme → Rule → Prop where
  | rule {name : String} {lexemes : List Lexeme} {es : List Expr} {rhs : Expr}
      (upper : StartsUpper name) (areAlternatives : AreAlternatives lexemes es)
      (choice : Expr.choice? es = some rhs) :
      IsRule (.ident name :: .arrow :: lexemes) ⟨⟨name⟩, rhs⟩

/-- A blank line, or a rule. -/
inductive IsLine : List Lexeme → Option Rule → Prop where
  | blank : IsLine [] none
  | rule {lexemes : List Lexeme} {rule : Rule} (isRule : IsRule lexemes rule) :
      IsLine lexemes (some rule)

/-- Lexemes stop being valid at the first one with which they are no longer the start of anything
valid or, if there is no such lexeme, where they end. -/
inductive FailsAt (valid : List Lexeme → Prop) (located : List LocatedLexeme) (stop : Nat) :
    Nat → Prop where
  | lexeme {before after : List LocatedLexeme} {l : LocatedLexeme}
      (located_eq : located = before ++ l :: after)
      (viable : ∃ more, valid (before.map LocatedLexeme.lexeme ++ more))
      (stuck : ¬∃ more, valid ((before ++ [l]).map LocatedLexeme.lexeme ++ more)) :
      FailsAt valid located stop l.start
  | stop (viable : ∃ more, valid (located.map LocatedLexeme.lexeme ++ more))
      (incomplete : ¬valid (located.map LocatedLexeme.lexeme)) : FailsAt valid located stop stop

variable {name : String} {lexeme : Lexeme} {lexemes rest done : List Lexeme} {e : Expr}
  {es items : List Expr} {located : List LocatedLexeme} {l : LocatedLexeme} {stop offset : Nat}

/-! ## Items -/

theorem isNonterminalName_iff : isNonterminalName name ↔ StartsUpper name := by
  rw [isNonterminalName, StartsUpper]
  cases name.toList.head? with
  | none => simp
  | some c =>
    have hupper : c.isUpper ↔ 'A' ≤ c ∧ c ≤ 'Z' := decide_eq_true_iff
    simp [hupper]

namespace Lexeme

theorem isItem_ident_iff : (ident name).IsItem e ↔ e = .ofName name := by
  by_cases h : StartsUpper name
  · rw [Expr.ofName, if_pos (isNonterminalName_iff.mpr h)]
    refine ⟨fun hitem => ?_, fun heq => heq ▸ .nonterminal h⟩
    cases hitem with
    | nonterminal => rfl
    | terminal hnot => exact absurd h hnot
  · rw [Expr.ofName, if_neg (mt isNonterminalName_iff.mp h)]
    refine ⟨fun hitem => ?_, fun heq => heq ▸ .terminal h⟩
    cases hitem with
    | nonterminal hupper => exact absurd hupper h
    | terminal => rfl

theorem rightUnique_isItem : Relator.RightUnique IsItem := by
  intro lexeme e e' h h'
  cases lexeme with
  | ident name => rw [isItem_ident_iff.mp h, isItem_ident_iff.mp h']
  | quoted | epsilon => cases h; cases h'; rfl
  | arrow | pipe | newline => cases h

/-- Bars and arrows are no items, and neither are line breaks. -/
theorem IsItem.ne (h : lexeme.IsItem e) : lexeme ≠ .pipe ∧ lexeme ≠ .arrow := by
  cases h <;> simp

theorem IsItem.ne_nil_iff (h : List.Forall₂ IsItem lexemes items) : lexemes ≠ [] ↔ items ≠ [] := by
  cases h <;> simp

theorem IsItem.notMem (h : List.Forall₂ IsItem lexemes items) :
    pipe ∉ lexemes ∧ arrow ∉ lexemes := by
  induction h with
  | nil => simp
  | cons hitem _ ih => simp [hitem.ne.1.symm, hitem.ne.2.symm, ih]

end Lexeme

/-! ## Alternatives -/

theorem eq_of_append_cons_eq {α : Type} {a : α} {as bs cs ds : List α} (has : a ∉ as) (hcs : a ∉ cs)
    (h : as ++ a :: bs = cs ++ a :: ds) : as = cs ∧ bs = ds := by
  rcases List.append_eq_append_iff.mp h with ⟨mid, rfl, hmid⟩ | ⟨mid, rfl, hmid⟩ <;>
    cases mid <;> simp_all

/-- The lexemes before the first bar are all of the first alternative. -/
theorem areAlternatives_items_iff (hdone : List.Forall₂ Lexeme.IsItem done items) :
    AreAlternatives done es ↔ items ≠ [] ∧ es = [.concat items] := by
  rw [← Lexeme.IsItem.ne_nil_iff hdone]
  constructor
  · intro h
    cases h with
    | last halt =>
      obtain ⟨hne, hitems⟩ := halt
      exact ⟨hne, by rw [List.right_unique_forall₂' Lexeme.rightUnique_isItem hitems hdone]⟩
    | more => simpa using (Lexeme.IsItem.notMem hdone).1
  · rintro ⟨hne, rfl⟩
    exact .last (.concat hne hdone)

theorem areAlternatives_pipe_iff (hdone : List.Forall₂ Lexeme.IsItem done items) :
    AreAlternatives (done ++ .pipe :: rest) es ↔
      items ≠ [] ∧ ∃ es', AreAlternatives rest es' ∧ .concat items :: es' = es := by
  rw [← Lexeme.IsItem.ne_nil_iff hdone]
  constructor
  · intro h
    generalize hlexemes : done ++ .pipe :: rest = lexemes at h
    cases h with
    | last halt =>
      obtain ⟨-, hitems⟩ := halt
      exact absurd (Lexeme.IsItem.notMem hitems).1 (by simp [← hlexemes])
    | more halt hmore =>
      obtain ⟨hne, hitems⟩ := halt
      obtain ⟨rfl, rfl⟩ := eq_of_append_cons_eq (Lexeme.IsItem.notMem hdone).1
        (Lexeme.IsItem.notMem hitems).1 hlexemes
      rw [List.right_unique_forall₂' Lexeme.rightUnique_isItem hitems hdone]
      exact ⟨hne, _, hmore, rfl⟩
  · rintro ⟨hne, es', hmore, rfl⟩
    exact .more (.concat hne hdone) hmore

theorem AreAlternatives.arrow_notMem (h : AreAlternatives lexemes es) : .arrow ∉ lexemes := by
  induction h with
  | last halt =>
    obtain ⟨-, hitems⟩ := halt
    exact (Lexeme.IsItem.notMem hitems).2
  | more halt _ ih =>
    obtain ⟨-, hitems⟩ := halt
    simp [(Lexeme.IsItem.notMem hitems).2, ih]

/-- A row of items can always go on. -/
theorem exists_areAlternatives_items (hdone : List.Forall₂ Lexeme.IsItem done items) :
    ∃ more es, AreAlternatives (done ++ more) es := by
  have hmore := List.rel_append hdone (.cons .epsilon .nil)
  exact ⟨[.epsilon], _, (areAlternatives_items_iff hmore).mpr ⟨by simp, rfl⟩⟩

/-! ## Results -/

/-- The result is what makes the lexemes valid or, if nothing does, where they fail. -/
def Decides {α : Type} (valid : List Lexeme → α → Prop) (located : List LocatedLexeme)
    (stop : Nat) : Except Rejection α → Prop
  | .ok a => valid (located.map LocatedLexeme.lexeme) a
  | .error rejection =>
    FailsAt (fun lexemes => ∃ a, valid lexemes a) located stop rejection.offset

section

variable {α β : Type} {valid : List Lexeme → α → Prop} {valid' : List Lexeme → β → Prop}
  {result : Except Rejection α} {error : SourceError}

theorem FailsAt.not_valid {p : List Lexeme → Prop} (h : FailsAt p located stop offset) :
    ¬p (located.map LocatedLexeme.lexeme) := by
  intro hvalid
  cases h with
  | @lexeme before after l heq _ stuck =>
    refine stuck ⟨after.map LocatedLexeme.lexeme, ?_⟩
    simpa [heq] using hvalid
  | stop _ incomplete => exact incomplete hvalid

theorem FailsAt.cons {p : List Lexeme → Prop}
    (h : FailsAt (fun lexemes => p (l.lexeme :: lexemes)) located stop offset) :
    FailsAt p (l :: located) stop offset := by
  cases h with
  | @lexeme before after _ heq viable stuck =>
    have hcons : l :: located = (l :: before) ++ _ :: after := congrArg (l :: ·) heq
    exact .lexeme hcons viable stuck
  | stop viable incomplete => exact .stop viable incomplete

/-- The first lexeme is already wrong. -/
theorem decides_head (viable : ∃ more a, valid more a)
    (stuck : ¬∃ more a, valid (l.lexeme :: more) a) :
    Decides valid (l :: located) stop (.error ⟨l.start, error⟩) :=
  .lexeme (show l :: located = [] ++ l :: located from rfl) viable stuck

theorem decides_nil (viable : ∃ more a, valid more a) (incomplete : ¬∃ a, valid [] a) :
    Decides valid [] stop (.error ⟨stop, error⟩) :=
  .stop viable incomplete

theorem Decides.cons
    (h : Decides (fun lexemes => valid (l.lexeme :: lexemes)) located stop result) :
    Decides valid (l :: located) stop result := by
  cases result with
  | ok a => exact h
  | error rejection => exact FailsAt.cons h

theorem Decides.map {f : α → β} (h : Decides valid located stop result)
    (hvalid : ∀ lexemes b, valid' lexemes b ↔ ∃ a, valid lexemes a ∧ f a = b) :
    Decides valid' located stop (result.map f) := by
  cases result with
  | ok a => exact (hvalid _ _).mpr ⟨a, h, rfl⟩
  | error rejection =>
    have heq : (fun lexemes => ∃ a, valid lexemes a) = fun lexemes => ∃ b, valid' lexemes b := by
      funext lexemes
      simp [hvalid]
    rw [Decides, heq] at h
    exact h

end

/-! ## Reading -/

/-- One more item is read. -/
theorem decides_item {result : Except Rejection (List Expr)}
    (h : Decides (fun lexemes => AreAlternatives (done ++ [l.lexeme] ++ lexemes)) located stop
      result) :
    Decides (fun lexemes => AreAlternatives (done ++ lexemes)) (l :: located) stop result :=
  .cons (by simpa using h)

theorem decides_readAlternatives (stop : Nat) (hdone : List.Forall₂ Lexeme.IsItem done items)
    (hnewline : ∀ l ∈ located, l.lexeme ≠ .newline) :
    Decides (fun lexemes => AreAlternatives (done ++ lexemes)) located stop
      (readAlternatives stop items located) := by
  -- `done` are the lexemes of the alternative that is being read; a bar starts with none again
  fun_induction readAlternatives stop items located generalizing done with
  | case1 items hempty =>
    refine decides_nil (exists_areAlternatives_items hdone) ?_
    rintro ⟨es, h⟩
    rw [List.append_nil, areAlternatives_items_iff hdone] at h
    exact h.1 (List.isEmpty_iff.mp hempty)
  | case2 items hempty =>
    rw [Decides, List.map_nil, List.append_nil, areAlternatives_items_iff hdone]
    exact ⟨mt List.isEmpty_iff.mpr hempty, rfl⟩
  | case3 items start stop' rest name ih =>
    have hitem : (Lexeme.ident name).IsItem (.ofName name) := Lexeme.isItem_ident_iff.mpr rfl
    exact decides_item (ih (List.rel_append hdone (.cons hitem .nil))
      (List.forall_mem_cons.mp hnewline).2)
  | case4 items start stop' rest text ih =>
    exact decides_item (ih (List.rel_append hdone (.cons .quoted .nil))
      (List.forall_mem_cons.mp hnewline).2)
  | case5 items start stop' rest ih =>
    exact decides_item (ih (List.rel_append hdone (.cons .epsilon .nil))
      (List.forall_mem_cons.mp hnewline).2)
  | case6 items start stop' rest hempty =>
    refine decides_head (exists_areAlternatives_items hdone) ?_
    rintro ⟨more, es, h⟩
    exact ((areAlternatives_pipe_iff hdone).mp h).1 (List.isEmpty_iff.mp hempty)
  | case7 items start stop' rest hempty ih =>
    have hmore := ih .nil (List.forall_mem_cons.mp hnewline).2
    refine .cons (hmore.map fun lexemes es => ?_)
    rw [areAlternatives_pipe_iff hdone]
    exact and_iff_right (mt List.isEmpty_iff.mpr hempty)
  | case8 items start stop' rest =>
    refine decides_head (exists_areAlternatives_items hdone) ?_
    rintro ⟨more, es, h⟩
    exact h.arrow_notMem (by simp)
  | case9 items start stop' rest ih => simp at hnewline

/-! ## Lines -/

theorem choice?_eq_some_iff {rhs : Expr} :
    Expr.choice? es = some rhs ↔ es ≠ [] ∧ rhs = .anyOf es := by
  cases es <;> simp [Expr.choice?, eq_comm]

theorem AreAlternatives.ne_nil (h : AreAlternatives lexemes es) : es ≠ [] := by
  cases h <;> exact List.cons_ne_nil _ _

theorem isLine_cons_iff {rule? : Option Rule} : IsLine (lexeme :: lexemes) rule? ↔
    ∃ name rest es, lexeme = .ident name ∧ StartsUpper name ∧ lexemes = .arrow :: rest ∧
      AreAlternatives rest es ∧ some ⟨⟨name⟩, .anyOf es⟩ = rule? := by
  constructor
  · rintro (_ | ⟨⟨hupper, halts, hchoice⟩⟩)
    obtain ⟨-, rfl⟩ := choice?_eq_some_iff.mp hchoice
    exact ⟨_, _, _, rfl, hupper, rfl, halts, rfl⟩
  · rintro ⟨name, rest, es, rfl, hupper, rfl, halts, rfl⟩
    exact .rule (.rule hupper halts (choice?_eq_some_iff.mpr ⟨halts.ne_nil, rfl⟩))

/-- Reading a line gives the rule on it, or the place where it fails to be a line. -/
theorem Line.decides_rule? (line : Line) (hnewline : ∀ l ∈ line.lexemes, l.lexeme ≠ .newline) :
    Decides IsLine line.lexemes line.stop line.rule? := by
  have hblank : ∃ more rule?, IsLine more rule? := ⟨[], none, .blank⟩
  unfold rule?
  split
  · next heq => rw [heq]; exact .blank
  · next start stop name rest heq =>
    rw [heq] at hnewline ⊢
    obtain ⟨-, hrest⟩ := List.forall_mem_cons.mp hnewline
    split
    · next hname =>
      have hupper := isNonterminalName_iff.mp hname
      have hviable : ∃ more rule?, IsLine (.ident name :: more) rule? := by
        obtain ⟨more, es, halts⟩ := exists_areAlternatives_items .nil
        exact ⟨.arrow :: more, _,
          isLine_cons_iff.mpr ⟨name, more, es, rfl, hupper, rfl, halts, rfl⟩⟩
      split
      · next rest =>
        have halts := decides_readAlternatives line.stop .nil (List.forall_mem_cons.mp hrest).2
        refine .cons (.cons (halts.map fun lexemes rule? => ?_))
        simp [isLine_cons_iff, hupper]
      · next start' stop' lexeme rest hne =>
        refine .cons (decides_head hviable ?_)
        rintro ⟨more, rule?, h⟩
        obtain ⟨_, _, _, -, -, harrow, -⟩ := isLine_cons_iff.mp h
        exact hne (List.cons.inj harrow).1
      · exact .cons (decides_nil hviable (by simp [isLine_cons_iff]))
    · next hname =>
      refine decides_head hblank ?_
      rintro ⟨more, rule?, h⟩
      obtain ⟨_, _, _, hident, hupper, -⟩ := isLine_cons_iff.mp h
      exact hname (isNonterminalName_iff.mpr (Lexeme.ident.inj hident ▸ hupper))
  · next heq =>
    rw [heq]
    exact decides_head hblank (by simp [isLine_cons_iff])
  · next start stop lexeme rest hident harrow heq =>
    rw [heq]
    refine decides_head hblank ?_
    rintro ⟨more, rule?, h⟩
    obtain ⟨name, _, _, rfl, -⟩ := isLine_cons_iff.mp h
    exact hident name rfl

end ContextFree
