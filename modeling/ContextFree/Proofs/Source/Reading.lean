import ContextFree.Proofs.Source.Printable
import ContextFree.Source.Reader

/-!
# What is read can be written down

Whatever a source is cut into, a name is a word that is read as what it names, and the alternatives
on a line are sequences of such names. So grammars that are read from a source without quotes are
printable (`Grammar.isPrintable_of_parse`).
-/

namespace ContextFree

/-! ## Lexemes -/

namespace Lexeme

def isQuoted : Lexeme → Bool
  | .quoted _ => true
  | _ => false

/-- A lexeme other than quoted text whose name, if it has one, can be written down. -/
def IsPlain : Lexeme → Prop
  | .ident name => (Expr.ofName name).IsPrintable
  | .quoted _ => False
  | _ => True

theorem isPlain_ofWord {word : List Char} (h : IsWord word) (hquote : word.head? ≠ some '\'') :
    (ofWord word).IsPlain := by
  rw [ofWord]
  split
  · trivial
  split
  · trivial
  next harrow hepsilon =>
  have hword : IsWord (String.ofList word).toList := by rwa [String.toList_ofList]
  rw [IsPlain, Expr.ofName]
  split
  · next hname => exact ⟨hword, hname⟩
  · next hname =>
    refine ⟨hword, hname, by rwa [String.toList_ofList], fun hreserved => ?_⟩
    have hchars : word = ['-', '>'] ∨ word = ['→'] ∨ word = ['ε'] := by
      simpa [reservedWords, ← String.toList_inj] using hreserved
    rcases hchars with h | h | h
    · exact harrow (.inl h)
    · exact harrow (.inr h)
    · exact hepsilon h

end Lexeme

theorem Piece.isQuoted_or_isPlain {c : Char} {cs : List Char} {piece : Piece}
    (h : Piece.first c cs = .ok piece) :
    ∀ lexeme ∈ piece.lexeme?, lexeme.isQuoted ∨ lexeme.IsPlain := by
  simp only [Piece.first] at h
  split at h
  · cases h; simp [Lexeme.IsPlain]
  next hnewline =>
  split at h
  · cases h; simp
  next hblank =>
  split at h
  · cases h; simp [Lexeme.IsPlain]
  next hbar =>
  split at h
  · split at h
    · cases h; simp [Lexeme.isQuoted]
    · simp at h
  next hquote =>
  split at h
  · split at h
    · split at h
      · cases h; simp
      · simp at h
    · cases h; simp
  next hopens =>
  cases h
  have hends : ¬endsWord (c :: cs) := by simp [endsWord, hblank, hbar, hopens]
  intro lexeme hlexeme
  rw [← Option.some.inj hlexeme]
  exact .inr (Lexeme.isPlain_ofWord (isWord_splitAtWordEnd hends) (by simpa using hquote))

theorem Lexing.isQuoted_or_isPlain (offset : Nat) (cs : List Char) :
    ∀ l ∈ (ofChars offset cs).lexemes, l.lexeme.isQuoted ∨ l.lexeme.IsPlain := by
  fun_induction ofChars offset cs with
  | case1 | case2 => simp
  | case3 offset c cs piece h stop lexing hnone ih => exact ih
  | case4 offset c cs piece h stop lexing lexeme hsome ih =>
    exact List.forall_mem_cons.mpr ⟨Piece.isQuoted_or_isPlain h lexeme hsome, ih⟩

/-! ## Lines -/

theorem Line.forall_mem_splitAll {p : LocatedLexeme → Prop} {lexemes : List LocatedLexeme}
    (h : ∀ l ∈ lexemes, p l) :
    (∀ line ∈ (splitAll lexemes).1, ∀ l ∈ line.lexemes, p l) ∧
      ∀ l ∈ (splitAll lexemes).2, p l := by
  induction lexemes with
  | nil => simp [splitAll]
  | cons first lexemes ih =>
    obtain ⟨hfirst, hrest⟩ := List.forall_mem_cons.mp h
    obtain ⟨hlines, hlast⟩ := ih hrest
    rw [splitAll]
    split
    · exact ⟨List.forall_mem_cons.mpr ⟨by simp, hlines⟩, hlast⟩
    · cases hsplit : (splitAll lexemes).1 with
      | nil => exact ⟨by simp, List.forall_mem_cons.mpr ⟨hfirst, hlast⟩⟩
      | cons line lines =>
        rw [hsplit] at hlines
        obtain ⟨hline, hlines⟩ := List.forall_mem_cons.mp hlines
        exact ⟨List.forall_mem_cons.mpr ⟨List.forall_mem_cons.mpr ⟨hfirst, hline⟩, hlines⟩, hlast⟩

/-! ## Right-hand sides -/

namespace Expr

variable {es : List Expr}

theorem isAtom_ofName (name : String) : (ofName name).isAtom := by
  rw [ofName]
  split <;> rfl

theorem IsPrintable.eachAtom {e : Expr} (h : e.IsPrintable) (hatom : e.isAtom) :
    e.EachAtom IsPrintable := by
  cases e with
  | terminal => exact eachAtom_terminal.mpr h
  | nonterminal => exact eachAtom_nonterminal.mpr h
  | empty => exact eachAtom_empty.mpr h
  | seq | alt => simp [isAtom] at hatom

theorem isLinear_of_isAtom {e : Expr} (h : e.isAtom) : e.isLinear := by
  cases e with
  | terminal | nonterminal | empty => rfl
  | seq | alt => simp [isAtom] at h

theorem isAtom_of_mem_factors {e f : Expr} (h : e.isAtom) (hf : f ∈ e.factors) : f.isAtom := by
  cases e with
  | terminal | nonterminal => rwa [List.mem_singleton.mp hf]
  | empty => simp [factors] at hf
  | seq | alt => simp [isAtom] at h

theorem isLinear_ofFactors (h : ∀ e ∈ es, e.isAtom) : (ofFactors es).isLinear := by
  match es with
  | [] => rfl
  | [e] => exact isLinear_of_isAtom (h e (List.mem_singleton_self e))
  | _ :: _ :: _ => exact List.all_eq_true.mpr h

/-- Atoms side by side make an atom or a sequence of atoms. -/
theorem isLinear_concat (h : ∀ e ∈ es, e.isAtom) : (concat es).isLinear := by
  apply isLinear_ofFactors
  intro f hf
  obtain ⟨e, he, hf⟩ := List.mem_flatMap.mp hf
  exact isAtom_of_mem_factors (h e he) hf

theorem isFlat_anyOf (h : ∀ e ∈ es, e.isLinear) : (anyOf es).isFlat := by
  match es with
  | [] => rfl
  | [e] => exact isFlat_of_isLinear (h e (List.mem_singleton_self e))
  | _ :: _ :: _ => exact List.all_eq_true.mpr h

theorem eachAtom_anyOf {p : Expr → Prop} (h : ∀ e ∈ es, e.EachAtom p) : (anyOf es).EachAtom p := by
  match es with
  | [] => exact eachAtom_alt.mpr h
  | [e] => exact h e (List.mem_singleton_self e)
  | _ :: _ :: _ => exact eachAtom_alt.mpr h

end Expr

theorem isLinear_of_readAlternatives {stop : Nat} {items : List Expr}
    {lexemes : List LocatedLexeme} {alternatives : List Expr}
    (hplain : ∀ l ∈ lexemes, l.lexeme.IsPlain)
    (hitems : ∀ item ∈ items, item.isAtom ∧ item.IsPrintable)
    (h : readAlternatives stop items lexemes = .ok alternatives) :
    ∀ e ∈ alternatives, e.isLinear ∧ e.EachAtom Expr.IsPrintable := by
  have snoc {items : List Expr} {item : Expr}
      (hitems : ∀ item ∈ items, item.isAtom ∧ item.IsPrintable) (hatom : item.isAtom)
      (hitem : item.IsPrintable) : ∀ e ∈ items ++ [item], e.isAtom ∧ e.IsPrintable :=
    List.forall_mem_append.mpr ⟨hitems, List.forall_mem_singleton.mpr ⟨hatom, hitem⟩⟩
  have whole {items : List Expr} (hitems : ∀ item ∈ items, item.isAtom ∧ item.IsPrintable) :
      (Expr.concat items).isLinear ∧ (Expr.concat items).EachAtom Expr.IsPrintable :=
    ⟨Expr.isLinear_concat fun item hi => (hitems item hi).1,
      Expr.eachAtom_concat trivial fun item hi => (hitems item hi).2.eachAtom (hitems item hi).1⟩
  fun_induction readAlternatives stop items lexemes generalizing alternatives with
  | case1 | case6 | case8 => simp at h
  | case2 => cases h; exact List.forall_mem_singleton.mpr (whole hitems)
  | case3 _ _ _ _ name ih =>
    obtain ⟨hname, hplain⟩ := List.forall_mem_cons.mp hplain
    exact ih hplain (snoc hitems (Expr.isAtom_ofName name) hname) h
  | case4 => exact absurd (List.forall_mem_cons.mp hplain).1 id
  | case5 _ _ _ _ ih => exact ih (List.forall_mem_cons.mp hplain).2 (snoc hitems rfl trivial) h
  | case7 _ _ _ _ _ ih =>
    obtain ⟨later, hrest, rfl⟩ := map_eq_ok_iff.mp h
    exact List.forall_mem_cons.mpr
      ⟨whole hitems, ih (List.forall_mem_cons.mp hplain).2 (by simp) hrest⟩
  | case9 _ _ _ _ ih => exact ih (List.forall_mem_cons.mp hplain).2 hitems h

/-! ## Rules -/

namespace Line

theorem isFlat_of_rule? {line : Line} {rule : Rule} (hplain : ∀ l ∈ line.lexemes, l.lexeme.IsPlain)
    (h : line.rule? = .ok (some rule)) :
    rule.rhs.isFlat ∧ rule.EachAtom Expr.IsPrintable := by
  unfold rule? at h
  split at h
  · simp at h
  · next heq =>
    rw [heq] at hplain
    obtain ⟨hlhs, hplain⟩ := List.forall_mem_cons.mp hplain
    split at h
    · next hname =>
      rw [Lexeme.IsPlain, Expr.ofName, if_pos hname] at hlhs
      split at h
      · obtain ⟨alternatives, halts, hrule⟩ := map_eq_ok_iff.mp h
        obtain rfl := Option.some.inj hrule
        have hlinear :=
          isLinear_of_readAlternatives (List.forall_mem_cons.mp hplain).2 (by simp) halts
        exact ⟨Expr.isFlat_anyOf fun e he => (hlinear e he).1, hlhs,
          Expr.eachAtom_anyOf fun e he => (hlinear e he).2⟩
      · simp at h
      · simp at h
    · simp at h
  · simp at h
  · simp at h

theorem isFlat_of_rules {lines : List Line} {rules : List Rule}
    (hplain : ∀ line ∈ lines, ∀ l ∈ line.lexemes, l.lexeme.IsPlain)
    (h : Line.rules lines = .ok rules) :
    ∀ rule ∈ rules, rule.rhs.isFlat ∧ rule.EachAtom Expr.IsPrintable := by
  fun_induction Line.rules lines generalizing rules with
  | case1 => cases h; simp
  | case2 => simp at h
  | case3 line lines rule? hrule ih =>
    obtain ⟨hline, hlines⟩ := List.forall_mem_cons.mp hplain
    obtain ⟨rest, hrest, rfl⟩ := map_eq_ok_iff.mp h
    refine List.forall_mem_append.mpr ⟨fun rule hr => ?_, ih hlines hrest⟩
    rw [Option.mem_toList] at hr
    exact isFlat_of_rule? hline (hr ▸ hrule)

end Line

/-- The grammar that is read from a source without quotes can be written down. -/
theorem Grammar.isPrintable_of_parse {source : String} {g : Grammar} (h : parse source = .ok g)
    (hquoted : ∀ l ∈ (Lexing.ofSource source).lexemes, ¬l.lexeme.isQuoted) : g.IsPrintable := by
  obtain ⟨rules, hread, hrules⟩ := parse_eq_ok_iff.mp h
  have hplain : ∀ l ∈ (Lexing.ofSource source).lexemes, l.lexeme.IsPlain := fun l hl =>
    (Lexing.isQuoted_or_isPlain 0 source.toList l hl).resolve_left (hquoted l hl)
  obtain ⟨hlines, hlast⟩ := Line.forall_mem_splitAll hplain
  simp only [readRules] at hread
  split at hread
  · have hflat := Line.isFlat_of_rules
      (List.forall_mem_append.mpr ⟨hlines, List.forall_mem_singleton.mpr hlast⟩) hread
    have hmem : ∀ rule ∈ g.rules, rule.rhs.isFlat ∧ rule.EachAtom Expr.IsPrintable :=
      fun rule hr => hflat rule (List.mem_eraseDups.mp (hrules ▸ hr))
    exact isPrintable_iff.mpr ⟨fun rule hr => (hmem rule hr).1, fun rule hr => (hmem rule hr).2⟩
  · split at hread <;> simp at hread

end ContextFree
