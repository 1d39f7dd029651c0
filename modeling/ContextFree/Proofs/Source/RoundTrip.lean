import ContextFree.Proofs.Source.Reading

/-!
# Reading what is written

The written form of a printable grammar is cut into the lexemes that its rules are made of
(`Grammar.cutsInto_text`). From these the rules are read back, each from its own line
(`Line.rules_splitAll`). So a printable grammar can be had from its written form
(`Grammar.parse_text`), and with it its split and its normal form.
-/

namespace ContextFree

/-! ## Cutting -/

/-- Wherever the characters stand, they are cut into these lexemes. -/
def CutsInto (cs : List Char) (lexemes : List Lexeme) : Prop :=
  ∀ offset, (Lexing.ofChars offset cs).fault? = none ∧
    (Lexing.ofChars offset cs).lexemes.map LocatedLexeme.lexeme = lexemes

/-- Before white space or the end, the characters are cut into these lexemes. -/
def Spells (cs : List Char) (lexemes : List Lexeme) : Prop :=
  ∀ rest more, AtBlank rest → CutsInto rest more → CutsInto (cs ++ rest) (lexemes ++ more)

section

variable {c : Char} {cs ds rest word : List Char} {lexemes more : List Lexeme}

theorem CutsInto.nil : CutsInto [] [] := by
  intro offset
  simp [Lexing.ofChars]

theorem CutsInto.cons (piece : Piece) (h : Piece.first c cs = .ok piece)
    (hrest : CutsInto piece.rest lexemes) :
    CutsInto (c :: cs) (piece.lexeme?.toList ++ lexemes) := by
  intro offset
  obtain ⟨hfault, hlexemes⟩ := hrest (offset + Text.byteLength piece.chars)
  rw [Lexing.ofChars]
  split
  · next heq => simp [h] at heq
  · next heq =>
    obtain rfl := Except.ok.inj (h.symm.trans heq)
    dsimp only
    split
    · next hnone => simp [hnone, hfault, hlexemes]
    · next hsome => simp [hsome, hfault, hlexemes]

theorem isBlank_space : Text.isBlank ' ' := by decide

theorem CutsInto.blank (h : CutsInto cs lexemes) : CutsInto (' ' :: cs) lexemes :=
  .cons ⟨[' '], none, cs⟩ (by simp [Piece.first, Text.isBlank, Text.blankRanges]) h

theorem CutsInto.newline (h : CutsInto cs lexemes) : CutsInto ('\n' :: cs) (.newline :: lexemes) :=
  .cons ⟨['\n'], some .newline, cs⟩ (by simp [Piece.first]) h

theorem CutsInto.pipe (h : CutsInto cs lexemes) : CutsInto ('|' :: cs) (.pipe :: lexemes) :=
  .cons ⟨['|'], some .pipe, cs⟩ (by simp [Piece.first, Text.isBlank, Text.blankRanges]) h

theorem IsWord.spells (h : IsWord word) (hquote : word.head? ≠ some '\'') :
    Spells word [.ofWord word] := by
  intro rest more hblank hrest
  obtain ⟨c, word, rfl⟩ := List.exists_cons_of_ne_nil h.ne_nil
  exact .cons _ (h.first (by simpa using hquote) hblank) hrest

/-- Between two parts there may be any positive number of blanks. -/
theorem Spells.append_blanks (h : Spells cs lexemes) (h' : Spells ds more) (count : Nat) :
    Spells (cs ++ List.replicate (count + 1) ' ' ++ ds) (lexemes ++ more) := by
  intro rest after hblank hrest
  have hblanks (count : Nat) :
      CutsInto (List.replicate count ' ' ++ (ds ++ rest)) (more ++ after) := by
    induction count with
    | zero => exact h' _ _ hblank hrest
    | succ count ih => exact ih.blank
  simp only [List.append_assoc]
  exact h _ _ (atBlank_cons.mpr isBlank_space) (hblanks (count + 1))

/-- Parts are separated by characters that start with white space and are cut into the separator. -/
theorem Spells.intercalate {α : Type} {as : List α} {separator : List Char}
    {separatorLexemes : List Lexeme} {chars : α → List Char} {lexemes : α → List Lexeme}
    (hblank : Text.isBlank c)
    (hseparator : ∀ rest more, CutsInto rest more →
      CutsInto (c :: separator ++ rest) (separatorLexemes ++ more))
    (hne : as ≠ []) (h : ∀ a ∈ as, Spells (chars a) (lexemes a)) :
    Spells ((c :: separator).intercalate (as.map chars))
      (separatorLexemes.intercalate (as.map lexemes)) := by
  induction as with
  | nil => exact absurd rfl hne
  | cons a as ih =>
    obtain ⟨ha, has⟩ := List.forall_mem_cons.mp h
    cases as with
    | nil => simpa using ha
    | cons b as =>
      intro rest more hrestBlank hrest
      have hlater := ih (by simp) has rest more hrestBlank hrest
      simp only [List.map_cons, List.intercalate_cons_cons, List.append_assoc] at hlater ⊢
      exact ha _ _ (atBlank_cons.mpr hblank) (hseparator _ _ hlater)

end

/-! ## Written forms -/

namespace Expr

/-- The lexeme of an atom. -/
def lexeme : Expr → Lexeme
  | .terminal token => .ident token
  | .nonterminal symbol => .ident symbol.name
  | _ => .epsilon

/-- The alternatives of a choice; whatever is not a choice is its own only alternative. -/
def alternatives : Expr → List Expr
  | .alt alternatives => alternatives
  | e => [e]

/-- The lexemes of the items. -/
def itemLexemes (e : Expr) : List Lexeme :=
  e.items.map lexeme

/-- The lexemes of the alternatives, with bars in between. -/
def lexemes (e : Expr) : List Lexeme :=
  [Lexeme.pipe].intercalate (e.alternatives.map itemLexemes)

end Expr

theorem spells_name {name : String} (hword : IsWord name.toList)
    (hquote : name.toList.head? ≠ some '\'') (hreserved : name ∉ reservedWords) :
    Spells name.toList [.ident name] := by
  have hident : Lexeme.ofWord name.toList = .ident name := by
    simp only [reservedWords, List.mem_cons, List.not_mem_nil, or_false, not_or,
      ← String.toList_inj] at hreserved
    simp_all [Lexeme.ofWord]
  exact hident ▸ hword.spells hquote

theorem Nonterminal.IsPrintable.spells {symbol : Nonterminal} (h : symbol.IsPrintable) :
    Spells symbol.name.toList [.ident symbol.name] := by
  have hupper := h.isNonterminalName
  refine spells_name h.isWord (fun hquote => ?_) fun hreserved => ?_
  · simp [ContextFree.isNonterminalName, hquote] at hupper
  · simp only [reservedWords, List.mem_cons, List.not_mem_nil, or_false] at hreserved
    rcases hreserved with heq | heq | heq <;> simp [heq, ContextFree.isNonterminalName] at hupper

namespace Expr

variable {e : Expr}

theorem spells_atom (hatom : e.isAtom) (h : e.IsPrintable) : Spells e.text.toList [e.lexeme] := by
  cases e with
  | terminal token => exact spells_name h.isWord h.notQuoted h.notReserved
  | nonterminal symbol => exact h.spells
  | empty =>
    have hword : IsWord ['ε'] := by decide
    exact hword.spells (by decide)
  | seq | alt => simp [isAtom] at hatom

theorem EachAtom.isPrintable (h : e.EachAtom IsPrintable) (hatom : e.isAtom) : e.IsPrintable := by
  cases e with
  | terminal => exact eachAtom_terminal.mp h
  | nonterminal => exact eachAtom_nonterminal.mp h
  | empty => trivial
  | seq | alt => simp [isAtom] at hatom

theorem spells_linear (hlinear : e.isLinear) (h : e.EachAtom IsPrintable) (hwf : e.WellFormed) :
    Spells e.text.toList e.itemLexemes := by
  have htext : e.text.toList = [' '].intercalate (e.items.map fun item => item.text.toList) := by
    cases e with
    | seq items => simp [Expr.items, Function.comp_def]
    | terminal | nonterminal | empty | alt => simp [Expr.items]
  have hlexemes : e.itemLexemes = [].intercalate (e.items.map fun item => [item.lexeme]) := by
    rw [itemLexemes]
    induction e.items with
    | nil => rfl
    | cons item items ih => cases items <;> simp_all
  rw [htext, hlexemes]
  refine Spells.intercalate isBlank_space (fun _ _ hrest => hrest.blank) hwf.items_ne_nil
    fun item hi => ?_
  have hatom := isAtom_of_mem_items hlinear hi
  exact spells_atom hatom ((h.of_mem_items hi).isPrintable hatom)

theorem alternatives_ne_nil (hwf : e.WellFormed) : e.alternatives ≠ [] := by
  cases hwf with
  | alt two_le _ => exact List.ne_nil_of_length_pos (Nat.zero_lt_two.trans_le two_le)
  | terminal | nonterminal | empty | seq => exact List.cons_ne_nil _ _

theorem isLinear_of_mem_alternatives (hflat : e.isFlat) (h : e.EachAtom IsPrintable)
    (hwf : e.WellFormed) :
    ∀ a ∈ e.alternatives, a.isLinear ∧ a.EachAtom IsPrintable ∧ a.WellFormed := by
  cases e with
  | alt alternatives =>
    exact fun a ha => ⟨List.all_eq_true.mp hflat a ha, eachAtom_alt.mp h a ha,
      (wellFormed_alt.mp hwf).2 a ha⟩
  | terminal | nonterminal | empty | seq => exact List.forall_mem_singleton.mpr ⟨hflat, h, hwf⟩

theorem spells_flat (hflat : e.isFlat) (h : e.EachAtom IsPrintable) (hwf : e.WellFormed) :
    Spells e.text.toList e.lexemes := by
  have htext : e.text.toList =
      [' ', '|', ' '].intercalate (e.alternatives.map fun a => a.text.toList) := by
    cases e with
    | alt alternatives => simp [Expr.alternatives, Function.comp_def]
    | terminal | nonterminal | empty | seq => simp [Expr.alternatives]
  rw [htext, lexemes]
  refine Spells.intercalate isBlank_space (fun _ _ hrest => hrest.blank.pipe.blank)
    (alternatives_ne_nil hwf) fun a ha => ?_
  obtain ⟨hlinear, heach, hwf⟩ := isLinear_of_mem_alternatives hflat h hwf a ha
  exact spells_linear hlinear heach hwf

end Expr

/-- The lexemes of a rule. -/
def Rule.lexemes (rule : Rule) : List Lexeme :=
  .ident rule.lhs.name :: .arrow :: rule.rhs.lexemes

theorem forall_mem_intercalate {α : Type} {p : α → Prop} {separator : List α}
    {parts : List (List α)} (hseparator : ∀ a ∈ separator, p a)
    (h : ∀ part ∈ parts, ∀ a ∈ part, p a) : ∀ a ∈ separator.intercalate parts, p a := by
  induction parts with
  | nil => simp
  | cons part parts ih =>
    obtain ⟨hpart, hparts⟩ := List.forall_mem_cons.mp h
    cases parts with
    | nil => simpa using hpart
    | cons next parts =>
      rw [List.intercalate_cons_cons]
      exact List.forall_mem_append.mpr
        ⟨List.forall_mem_append.mpr ⟨hpart, hseparator⟩, ih hparts⟩

theorem Rule.newline_notMem_lexemes {rule : Rule} : Lexeme.newline ∉ rule.lexemes := by
  have hlexeme (e : Expr) : e.lexeme ≠ .newline := by cases e <;> simp [Expr.lexeme]
  have hrhs : ∀ lexeme ∈ rule.rhs.lexemes, lexeme ≠ .newline := by
    refine forall_mem_intercalate (by simp) fun part hpart lexeme hmem => ?_
    obtain ⟨a, -, rfl⟩ := List.mem_map.mp hpart
    obtain ⟨item, -, rfl⟩ := List.mem_map.mp hmem
    exact hlexeme item
  intro hmem
  simp only [lexemes, List.mem_cons, reduceCtorEq, false_or] at hmem
  exact hrhs _ hmem rfl

theorem Rule.spells {rule : Rule} (hflat : rule.rhs.isFlat) (h : rule.EachAtom Expr.IsPrintable)
    (hwf : rule.rhs.WellFormed) (width : Nat) :
    Spells (rule.paddedText width).toList rule.lexemes := by
  have harrow : Spells ['-', '>'] [.arrow] := IsWord.spells (by decide) (by decide)
  have htext : (rule.paddedText width).toList = rule.lhs.name.toList ++
      List.replicate (width - rule.lhs.name.length + 1) ' ' ++
        (['-', '>'] ++ List.replicate (0 + 1) ' ' ++ rule.rhs.text.toList) := by
    simp [paddedText, List.replicate_succ']
  have hlhs : rule.lhs.IsPrintable := h.1
  rw [htext]
  exact hlhs.spells.append_blanks
    (harrow.append_blanks (Expr.spells_flat hflat h.2 hwf) 0) _

namespace Grammar

variable {g : Grammar}

/-- The lexemes of a grammar, with line breaks between the rules. -/
def lexemes (g : Grammar) : List Lexeme :=
  [Lexeme.newline].intercalate (g.rules.map Rule.lexemes)

theorem cutsInto_text (h : g.IsPrintable) : CutsInto g.text.toList g.lexemes := by
  obtain ⟨hflat, heach⟩ := isPrintable_iff.mp h
  by_cases hnil : g.rules = []
  · simpa [text, lexemes, hnil] using CutsInto.nil
  have htext : g.text.toList = ['\n'].intercalate
      (g.rules.map fun rule => (rule.paddedText g.lhsWidth).toList) := by
    simp [text, Function.comp_def]
  have hspells : Spells g.text.toList g.lexemes := by
    rw [htext]
    exact Spells.intercalate (by decide) (fun _ _ hrest => hrest.newline) hnil fun rule hr =>
      rule.spells (hflat rule hr) (heach rule hr) (g.wellFormed rule hr) g.lhsWidth
  simpa using hspells [] [] (by simp [AtBlank]) .nil

end Grammar

/-! ## Reading back -/

section

variable {item e : Expr} {items done es : List Expr} {start stop : Nat}
  {located rest : List LocatedLexeme}

theorem readAlternatives_atom (hatom : item.isAtom) (h : item.IsPrintable) (stop' : Nat) :
    readAlternatives stop done (⟨start, stop', item.lexeme⟩ :: rest) =
      readAlternatives stop (done ++ [item]) rest := by
  cases item with
  | terminal token =>
    have hname : Expr.ofName token = .terminal token := if_neg h.not_isNonterminalName
    rw [Expr.lexeme, readAlternatives, hname]
  | nonterminal symbol =>
    have hname : Expr.ofName symbol.name = .nonterminal symbol := if_pos h.isNonterminalName
    rw [Expr.lexeme, readAlternatives, hname]
  | empty => rfl
  | seq | alt => simp [Expr.isAtom] at hatom

theorem readAlternatives_items (hitems : ∀ item ∈ items, item.isAtom ∧ item.IsPrintable)
    (h : located.map LocatedLexeme.lexeme = items.map Expr.lexeme) :
    readAlternatives stop done (located ++ rest) = readAlternatives stop (done ++ items) rest := by
  induction items generalizing located done with
  | nil => simp [List.map_eq_nil_iff.mp h]
  | cons item items ih =>
    obtain ⟨⟨hatom, hprintable⟩, hitems⟩ := List.forall_mem_cons.mp hitems
    obtain ⟨⟨start, stop', lexeme⟩, located, rfl, hlexeme, hlocated⟩ := List.map_eq_cons_iff.mp h
    obtain rfl : lexeme = item.lexeme := hlexeme
    rw [List.cons_append, readAlternatives_atom hatom hprintable, ih hitems hlocated,
      List.append_assoc]
    rfl

theorem readAlternatives_alternatives (hne : es ≠ [])
    (hes : ∀ e ∈ es, e.isLinear ∧ e.EachAtom Expr.IsPrintable ∧ e.WellFormed)
    (h : located.map LocatedLexeme.lexeme =
      [Lexeme.pipe].intercalate (es.map Expr.itemLexemes)) :
    readAlternatives stop [] located = .ok es := by
  induction es generalizing located with
  | nil => exact absurd rfl hne
  | cons e es ih =>
    obtain ⟨⟨hlinear, heach, hwf⟩, hes⟩ := List.forall_mem_cons.mp hes
    have hitems : ∀ item ∈ e.items, item.isAtom ∧ item.IsPrintable := fun item hi =>
      have hatom := Expr.isAtom_of_mem_items hlinear hi
      ⟨hatom, (heach.of_mem_items hi).isPrintable hatom⟩
    have hnonempty : ¬e.items.isEmpty := by simpa using hwf.items_ne_nil
    cases es with
    | nil =>
      have hread : readAlternatives stop [] (located ++ []) =
          readAlternatives stop ([] ++ e.items) [] :=
        readAlternatives_items hitems (by simpa [Expr.itemLexemes] using h)
      rw [List.append_nil, List.nil_append, readAlternatives, if_neg hnonempty,
        hwf.concat_items] at hread
      exact hread
    | cons e' es =>
      rw [List.map_cons, List.map_cons, List.intercalate_cons_cons] at h
      obtain ⟨_, after, rfl, hfront, hafter⟩ := List.map_eq_append_iff.mp h
      obtain ⟨before, _, rfl, hbefore, hpipe⟩ := List.map_eq_append_iff.mp hfront
      obtain ⟨⟨start, stop', lexeme⟩, rfl, hlexeme⟩ := List.map_eq_singleton_iff.mp hpipe
      obtain rfl : lexeme = .pipe := hlexeme
      rw [List.append_assoc, readAlternatives_items hitems hbefore, List.nil_append,
        List.singleton_append, readAlternatives, if_neg hnonempty, ih (by simp) hes hafter,
        hwf.concat_items]
      rfl

theorem anyOf_alternatives (hwf : e.WellFormed) : Expr.anyOf e.alternatives = e := by
  cases hwf with
  | terminal | nonterminal | empty | seq => rfl
  | @alt alternatives two_le _ =>
    match alternatives, two_le with
    | _ :: _ :: _, _ => rfl

end

namespace Line

variable {rule : Rule} {rules : List Rule} {located before after : List LocatedLexeme}
  {l : LocatedLexeme} {stop : Nat}

theorem rule?_of_lexemes (hflat : rule.rhs.isFlat) (heach : rule.EachAtom Expr.IsPrintable)
    (hwf : rule.rhs.WellFormed) (h : located.map LocatedLexeme.lexeme = rule.lexemes) :
    rule? ⟨located, stop⟩ = .ok (some rule) := by
  obtain ⟨⟨_, _, first⟩, _, rfl, hfirst, hrest⟩ := List.map_eq_cons_iff.mp h
  obtain ⟨⟨_, _, second⟩, rest, rfl, hsecond, halternatives⟩ := List.map_eq_cons_iff.mp hrest
  obtain rfl : first = .ident rule.lhs.name := hfirst
  obtain rfl : second = .arrow := hsecond
  have hlhs : rule.lhs.IsPrintable := heach.1
  have hread : readAlternatives stop [] rest = .ok rule.rhs.alternatives :=
    readAlternatives_alternatives (Expr.alternatives_ne_nil hwf)
      (Expr.isLinear_of_mem_alternatives hflat heach.2 hwf) halternatives
  simp [rule?, hlhs.isNonterminalName, hread, Except.map, anyOf_alternatives hwf]

theorem splitAll_of_forall_ne (h : ∀ l ∈ located, l.lexeme ≠ .newline) :
    splitAll located = ([], located) := by
  induction located with
  | nil => rfl
  | cons l located ih =>
    obtain ⟨hl, h⟩ := List.forall_mem_cons.mp h
    rw [splitAll, if_neg hl, ih h]

theorem splitAll_append (h : ∀ l ∈ before, l.lexeme ≠ .newline) (hl : l.lexeme = .newline) :
    splitAll (before ++ l :: after) =
      (⟨before, l.start⟩ :: (splitAll after).1, (splitAll after).2) := by
  induction before with
  | nil => rw [List.nil_append, splitAll, if_pos hl]
  | cons first before ih =>
    obtain ⟨hfirst, h⟩ := List.forall_mem_cons.mp h
    rw [List.cons_append, splitAll, if_neg hfirst, ih h]

theorem rules_splitAll (stop : Nat) (hrules : ∀ rule ∈ rules,
      rule.rhs.isFlat ∧ rule.EachAtom Expr.IsPrintable ∧ rule.rhs.WellFormed)
    (h : located.map LocatedLexeme.lexeme =
      [Lexeme.newline].intercalate (rules.map Rule.lexemes)) :
    Line.rules ((splitAll located).1 ++ [⟨(splitAll located).2, stop⟩]) = .ok rules := by
  induction rules generalizing located with
  | nil =>
    obtain rfl : located = [] := by simpa using h
    rfl
  | cons rule rules ih =>
    obtain ⟨⟨hflat, heach, hwf⟩, hrules⟩ := List.forall_mem_cons.mp hrules
    have hne {part : List LocatedLexeme} (hpart : part.map LocatedLexeme.lexeme = rule.lexemes) :
        ∀ l ∈ part, l.lexeme ≠ .newline := fun l hl heq => by
      refine rule.newline_notMem_lexemes (hpart ▸ ?_)
      exact List.mem_map.mpr ⟨l, hl, heq⟩
    cases rules with
    | nil =>
      have hlocated : located.map LocatedLexeme.lexeme = rule.lexemes := by simpa using h
      have hrule : rule? ⟨located, stop⟩ = .ok (some rule) :=
        rule?_of_lexemes hflat heach hwf hlocated
      rw [splitAll_of_forall_ne (hne hlocated), List.nil_append, Line.rules, hrule]
      rfl
    | cons rule' rules =>
      rw [List.map_cons, List.map_cons, List.intercalate_cons_cons] at h
      obtain ⟨_, after, rfl, hfront, hafter⟩ := List.map_eq_append_iff.mp h
      obtain ⟨before, _, rfl, hbefore, hnewline⟩ := List.map_eq_append_iff.mp hfront
      obtain ⟨l, rfl, hl⟩ := List.map_eq_singleton_iff.mp hnewline
      have hrule : rule? ⟨before, l.start⟩ = .ok (some rule) :=
        rule?_of_lexemes hflat heach hwf hbefore
      rw [List.append_assoc, List.singleton_append, splitAll_append (hne hbefore) hl,
        List.cons_append, Line.rules, hrule]
      dsimp only
      rw [ih hrules hafter]
      rfl

end Line

namespace Grammar

variable {g : Grammar}

/-- A printable grammar is what is read from its written form. -/
theorem IsPrintable.parse_text (h : g.IsPrintable) : parse g.text = .ok g := by
  obtain ⟨hflat, heach⟩ := isPrintable_iff.mp h
  obtain ⟨hfault, hlexemes⟩ := cutsInto_text h 0
  refine parse_eq_ok_iff.mpr ⟨g.rules, ?_, (eraseDups_eq_self g.nodup).symm⟩
  have hrules := Line.rules_splitAll (Text.byteLength g.text.toList)
    (fun rule hr => ⟨hflat rule hr, heach rule hr, g.wellFormed rule hr⟩) hlexemes
  simp only [readRules, Lexing.ofSource, hfault]
  exact hrules

/-- Printable grammars are read back from their written forms. All grammars that are read from
sources without quotes are printable, and so are their splits and, unless the program stops on the
way to them, their normal forms. -/
theorem parse_text_spec : (∀ g : Grammar, g.IsPrintable → parse g.text = .ok g) ∧
    ∀ source g, parse source = .ok g →
      (∀ l ∈ (Lexing.ofSource source).lexemes, ¬l.lexeme.isQuoted) →
        parse g.text = .ok g ∧
          parse g.splitAlternatives.text = .ok g.splitAlternatives ∧
            ∀ a, (g.toCnf? a = none ↔ g.Overflows a) ∧
              ∀ cnf, g.toCnf? a = some cnf → parse cnf.text = .ok cnf := by
  refine ⟨fun g h => h.parse_text, fun source g h hquoted => ?_⟩
  have hprintable := isPrintable_of_parse h hquoted
  refine ⟨hprintable.parse_text, hprintable.splitAlternatives.parse_text,
    fun a => ⟨toCnf?_eq_none_iff, fun cnf hcnf => ?_⟩⟩
  obtain ⟨-, rfl⟩ := toCnf?_eq_some_iff.mp hcnf
  exact (hprintable.toCnf a).parse_text

theorem parse_text_spec_brackets : ∃ g : Grammar,
    parse "S -> ( S )\t| ε // nothing" = .ok g ∧ g.text = "S -> ( S ) | ε" ∧ parse g.text = .ok g ∧
      parse g.splitAlternatives.text = .ok g.splitAlternatives ∧
        ∃ cnf, g.toCnf? (.checked 64) = some cnf ∧ parse cnf.text = .ok cnf := by
  let g : Grammar :=
    ⟨[⟨⟨"S"⟩, .alt [.seq [.terminal "(", .nonterminal ⟨"S"⟩, .terminal ")"], .empty]⟩],
      by decide, by decide⟩
  have hparse : parse "S -> ( S )\t| ε // nothing" = .ok g :=
    parse_eq_ok_iff.mpr ⟨g.rules, by decide +kernel, rfl⟩
  have hall : (Lexing.ofSource "S -> ( S )\t| ε // nothing").lexemes.all
      (fun l => !l.lexeme.isQuoted) := by
    decide +kernel
  have hquoted := List.all_eq_true.mp hall
  simp only [Bool.not_eq_true'] at hquoted
  obtain ⟨-, hsplit, hcnf⟩ := parse_text_spec.2 _ _ hparse fun l hl => by simp [hquoted l hl]
  have hfits : g.Fits (.checked 64) := by decide
  have hnormal := toCnf?_eq_some_iff.mpr ⟨hfits.not_overflows, rfl⟩
  exact ⟨g, hparse, by decide +kernel, parse_text_spec.1 _ (isPrintable_of_parse hparse
    fun l hl => by simp [hquoted l hl]), hsplit, _, hnormal, (hcnf (.checked 64)).2 _ hnormal⟩

end Grammar

end ContextFree
