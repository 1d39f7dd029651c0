import ContextFree.Proofs.Source.Format
import ContextFree.Proofs.Source.Tiling
import ContextFree.Source.Reader

/-!
# Reading a source line by line

A source is a grammar if all of its lines have the format of a line and nothing in it lacks an end.
If it is rejected, that is because of the first line that is not like this (`Grammar.parse_lines`).
-/

namespace ContextFree

/-! ## Lines -/

/-- The lexemes are those of the lines, each ended by a line break, and of the last line. -/
inductive Line.Cut : List LocatedLexeme → List Line → List LocatedLexeme → Prop where
  | last {lexemes : List LocatedLexeme} (unbroken : ∀ l ∈ lexemes, l.lexeme ≠ .newline) :
      Cut lexemes [] lexemes
  | line {lexemes rest last : List LocatedLexeme} {lines : List Line} {start stop : Nat}
      (unbroken : ∀ l ∈ lexemes, l.lexeme ≠ .newline) (more : Cut rest lines last) :
      Cut (lexemes ++ ⟨start, stop, .newline⟩ :: rest) (⟨lexemes, start⟩ :: lines) last

/-- The first bad line decides: it is the last one if the lexing has a fault there, or else one that
fails to have the format of a line. -/
inductive RejectedAt (fault? : Option (Nat × LexicalError)) : List Line → Rejection → Prop where
  | fault {line : Line} {offset : Nat} {cause : LexicalError}
      (fault?_eq : fault? = some (offset, cause)) :
      RejectedAt fault? [line] ⟨offset, .lexical cause⟩
  | line {line : Line} {lines : List Line} {rejection : Rejection}
      (complete : lines ≠ [] ∨ fault? = none)
      (failsAt : FailsAt (fun lexemes => ∃ rule?, IsLine lexemes rule?) line.lexemes line.stop
        rejection.offset) : RejectedAt fault? (line :: lines) rejection
  | later {line : Line} {lines : List Line} {rejection : Rejection} {rule? : Option Rule}
      (good : IsLine (line.lexemes.map LocatedLexeme.lexeme) rule?)
      (later : RejectedAt fault? lines rejection) : RejectedAt fault? (line :: lines) rejection

namespace Line

theorem cut_splitAll (lexemes : List LocatedLexeme) :
    Cut lexemes (splitAll lexemes).1 (splitAll lexemes).2 := by
  induction lexemes with
  | nil => exact .last (by simp)
  | cons l lexemes ih =>
    rw [splitAll]
    split
    · next hl =>
      obtain ⟨start, stop, lexeme⟩ := l
      obtain rfl : lexeme = .newline := hl
      exact @Cut.line [] _ _ _ _ _ (by simp) ih
    · next hl =>
      generalize (splitAll lexemes).1 = lines, (splitAll lexemes).2 = last at ih
      cases ih with
      | last hunbroken => exact .last (List.forall_mem_cons.mpr ⟨hl, hunbroken⟩)
      | line hunbroken hmore =>
        exact @Cut.line (l :: _) _ _ _ _ _ (List.forall_mem_cons.mpr ⟨hl, hunbroken⟩) hmore

variable {lexemes last : List LocatedLexeme} {line : Line} {lines : List Line}
  {rules : List Rule} {rejection : Rejection} {fault? : Option (Nat × LexicalError)}

theorem Cut.unbroken (h : Cut lexemes lines last) (stop : Nat) :
    ∀ line ∈ lines ++ [⟨last, stop⟩], ∀ l ∈ line.lexemes, l.lexeme ≠ .newline := by
  induction h with
  | last hunbroken => exact List.forall_mem_singleton.mpr hunbroken
  | line hunbroken _ ih => exact List.forall_mem_cons.mpr ⟨hunbroken, ih⟩

theorem isLine_of_rules (hunbroken : ∀ line ∈ lines, ∀ l ∈ line.lexemes, l.lexeme ≠ .newline)
    (h : Line.rules lines = .ok rules) : ∃ rules?, List.Forall₂ (fun line rule? =>
      IsLine (line.lexemes.map LocatedLexeme.lexeme) rule?) lines rules? ∧
        rules = rules?.reduceOption := by
  fun_induction Line.rules lines generalizing rules with
  | case1 => cases h; exact ⟨[], .nil, rfl⟩
  | case2 => simp at h
  | case3 line lines rule? hrule ih =>
    obtain ⟨hline, hlines⟩ := List.forall_mem_cons.mp hunbroken
    obtain ⟨rest, hrest, rfl⟩ := map_eq_ok_iff.mp h
    obtain ⟨rules?, hrules, rfl⟩ := ih hlines hrest
    have hdecides := line.decides_rule? hline
    rw [hrule] at hdecides
    refine ⟨rule? :: rules?, .cons hdecides hrules, ?_⟩
    cases rule? <;> rfl

theorem exists_isLine_of_rules
    (hunbroken : ∀ line ∈ lines, ∀ l ∈ line.lexemes, l.lexeme ≠ .newline)
    (h : Line.rules lines = .ok rules) :
    ∀ line ∈ lines, ∃ rule?, IsLine (line.lexemes.map LocatedLexeme.lexeme) rule? := by
  obtain ⟨rules?, hrules, -⟩ := isLine_of_rules hunbroken h
  clear hunbroken h
  induction hrules with
  | nil => simp
  | cons hrule _ ih => exact List.forall_mem_cons.mpr ⟨⟨_, hrule⟩, ih⟩

theorem rejectedAt_of_rules_eq_error
    (hunbroken : ∀ line ∈ lines, ∀ l ∈ line.lexemes, l.lexeme ≠ .newline)
    (h : Line.rules lines = .error rejection) (more : List Line)
    (hmore : more ≠ [] ∨ fault? = none) : RejectedAt fault? (lines ++ more) rejection := by
  induction lines with
  | nil => simp [Line.rules] at h
  | cons line lines ih =>
    obtain ⟨hline, hlines⟩ := List.forall_mem_cons.mp hunbroken
    have hdecides := line.decides_rule? hline
    rw [Line.rules] at h
    cases hrule : line.rule? with
    | error rejection' =>
      rw [hrule] at h hdecides
      cases h
      -- what has no end cannot be here, since there are more lines
      exact .line (hmore.imp_left (List.append_ne_nil_of_right_ne_nil lines)) hdecides
    | ok rule? =>
      rw [hrule] at h hdecides
      cases hrules : Line.rules lines with
      | error rejection' =>
        rw [hrules] at h
        cases h
        exact .later hdecides (ih hlines hrules)
      | ok rules =>
        rw [hrules] at h
        cases h

theorem rejectedAt_of_fault {offset : Nat} {cause : LexicalError}
    (hlines : ∀ line ∈ lines, ∃ rule?, IsLine (line.lexemes.map LocatedLexeme.lexeme) rule?) :
    RejectedAt (some (offset, cause)) (lines ++ [line]) ⟨offset, .lexical cause⟩ := by
  induction lines with
  | nil => exact .fault rfl
  | cons line lines ih =>
    obtain ⟨⟨rule?, hline⟩, hlines⟩ := List.forall_mem_cons.mp hlines
    exact .later hline (ih hlines)

end Line

theorem RejectedAt.exists_bad {lines : List Line} {rejection : Rejection}
    (h : RejectedAt none lines rejection) :
    ∃ line ∈ lines, ¬∃ rule?, IsLine (line.lexemes.map LocatedLexeme.lexeme) rule? := by
  induction h with
  | fault heq => simp at heq
  | line _ hfails => exact ⟨_, List.mem_cons_self, hfails.not_valid⟩
  | later _ _ ih =>
    obtain ⟨line, hmem, hbad⟩ := ih
    exact ⟨line, List.mem_cons_of_mem _ hmem, hbad⟩

/-! ## Sources -/

/-- The lines of a source, the last of which no line break ends. -/
def Line.ofSource (source : String) : List Line :=
  let split := Line.splitAll (Lexing.ofSource source).lexemes
  split.1 ++ [⟨split.2, source.utf8ByteSize⟩]

theorem Line.unbroken_ofSource (source : String) :
    ∀ line ∈ Line.ofSource source, ∀ l ∈ line.lexemes, l.lexeme ≠ .newline :=
  (Line.cut_splitAll _).unbroken _

theorem readRules_eq_ok_iff {source : String} {rules : List Rule} : readRules source = .ok rules ↔
    (Lexing.ofSource source).fault? = none ∧ Line.rules (Line.ofSource source) = .ok rules := by
  simp only [readRules, Line.ofSource, Text.byteLength_toList]
  cases (Lexing.ofSource source).fault? with
  | none => simp
  | some fault =>
    simp only [reduceCtorEq, false_and, iff_false]
    split <;> simp

theorem rejectedAt_of_readRules {source : String} {rejection : Rejection}
    (h : readRules source = .error rejection) :
    RejectedAt (Lexing.ofSource source).fault? (Line.ofSource source) rejection := by
  have hunbroken := Line.unbroken_ofSource source
  simp only [readRules, Line.ofSource, Text.byteLength_toList] at h hunbroken ⊢
  cases hfault : (Lexing.ofSource source).fault? with
  | none =>
    rw [hfault] at h
    have hrejected := Line.rejectedAt_of_rules_eq_error hunbroken h [] (.inr rfl)
    rwa [List.append_nil] at hrejected
  | some fault =>
    rw [hfault] at h
    have hlines := (List.forall_mem_append.mp hunbroken).1
    cases hrules : Line.rules (Line.splitAll (Lexing.ofSource source).lexemes).1 with
    | error rejection' =>
      rw [hrules] at h
      cases h
      exact Line.rejectedAt_of_rules_eq_error hlines hrules _ (.inl (List.cons_ne_nil _ _))
    | ok rules =>
      rw [hrules] at h
      cases h
      exact Line.rejectedAt_of_fault (Line.exists_isLine_of_rules hlines hrules)

namespace Grammar

/-- A source is cut into lines. It is a grammar if and only if nothing in it lacks an end and all
lines are blank or rules; it then has these rules. Otherwise the first line that is not like this
decides. Neither is there a line break to be read within a line nor a choice to be made among no
alternatives. -/
theorem parse_lines (source : String) : ∃ lines last,
    Line.Cut (Lexing.ofSource source).lexemes lines last ∧
      let all := lines ++ [⟨last, source.utf8ByteSize⟩]
      ((∃ g, parse source = .ok g) ↔ (Lexing.ofSource source).fault? = none ∧
        ∀ line ∈ all, ∃ rule?, IsLine (line.lexemes.map LocatedLexeme.lexeme) rule?) ∧
      (∀ g, parse source = .ok g → ∃ rules?, List.Forall₂ (fun line rule? =>
        IsLine (line.lexemes.map LocatedLexeme.lexeme) rule?) all rules? ∧
          ofRules? rules?.reduceOption = some g) ∧
      (∀ rejection, parse source = .error rejection →
        RejectedAt (Lexing.ofSource source).fault? all rejection) ∧
      (∀ line ∈ all, ∀ l ∈ line.lexemes, l.lexeme ≠ .newline) ∧
      ∀ stop located es, readAlternatives stop [] located = .ok es →
        ∃ rhs, Expr.choice? es = some rhs := by
  have hunbroken := Line.unbroken_ofSource source
  refine ⟨_, _, Line.cut_splitAll _, ⟨?_, ?_⟩, ?_, ?_, hunbroken, ?_⟩
  · rintro ⟨g, hg⟩
    obtain ⟨rules, hread, -⟩ := parse_eq_ok_iff.mp hg
    obtain ⟨hfault, hrules⟩ := readRules_eq_ok_iff.mp hread
    exact ⟨hfault, Line.exists_isLine_of_rules hunbroken hrules⟩
  · rintro ⟨hfault, hlines⟩
    cases hparse : parse source with
    | ok g => exact ⟨g, rfl⟩
    | error rejection =>
      have hrejected := rejectedAt_of_readRules (parse_eq_error_iff.mp hparse)
      obtain ⟨line, hline, hbad⟩ := (hfault ▸ hrejected).exists_bad
      exact absurd (hlines line hline) hbad
  · intro g hg
    obtain ⟨rules, hread, hrules⟩ := parse_eq_ok_iff.mp hg
    obtain ⟨rules?, hlines, rfl⟩ :=
      Line.isLine_of_rules hunbroken (readRules_eq_ok_iff.mp hread).2
    refine ⟨rules?, hlines, ?_⟩
    have hwf := wellFormed_of_readRules hread
    rw [ofRules?, dif_pos hwf]
    exact congrArg some (Grammar.ext hrules.symm)
  · exact fun rejection h => rejectedAt_of_readRules (parse_eq_error_iff.mp h)
  · intro stop located es h
    have hne := (wellFormed_of_readAlternatives (by simp) h).1
    exact ⟨_, choice?_eq_some_iff.mpr ⟨hne, rfl⟩⟩

end Grammar

end ContextFree
