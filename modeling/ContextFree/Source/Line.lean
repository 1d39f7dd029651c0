import ContextFree.Grammar.Basic
import ContextFree.Source.Lexing

/-!
# Lines of a grammar

A line holds one rule: a nonterminal, an arrow, and alternatives separated by bars. It is rejected
at the first lexeme that no rule can have there, or at its end if the rule is not complete. A
rejection has an offset and a reason.
-/

namespace ContextFree

/-! ## Rejections -/

/-- Why a source is no grammar. -/
inductive SourceError where
  | lexical (error : LexicalError)
  | missingLhs
  | lhsNotNonterminal
  | lhsTerminal (name : String)
  | missingArrow
  | unexpectedArrow
  | emptyAlternative
deriving DecidableEq

def SourceError.message : SourceError → String
  | lexical error => error.message
  | missingLhs => "missing left-hand side"
  | lhsNotNonterminal => "left-hand side must be a nonterminal"
  | lhsTerminal name => "left-hand side `" ++ name ++ "` is not a nonterminal"
  | missingArrow => "expected `->` after left-hand side"
  | unexpectedArrow => "unexpected `->`"
  | emptyAlternative => "empty alternative"

/-- A message about the place of a source at a byte offset. -/
structure Diagnostic where
  offset : Nat
  message : String
deriving DecidableEq

namespace Diagnostic

def text (diagnostic : Diagnostic) : String :=
  diagnostic.message ++ " at offset " ++ toString diagnostic.offset

/-- Where in the source the diagnostic points to. -/
def position (diagnostic : Diagnostic) (source : String) : Text.Position :=
  .ofOffset source diagnostic.offset

end Diagnostic

/-- The offset at which a source stops being a grammar, and why. -/
structure Rejection where
  offset : Nat
  error : SourceError
deriving DecidableEq

namespace Rejection

def diagnostic (rejection : Rejection) : Diagnostic :=
  ⟨rejection.offset, rejection.error.message⟩

end Rejection

/-! ## Names -/

/-- Nonterminals start with an uppercase letter of ASCII. -/
def isNonterminalName (name : String) : Bool :=
  name.toList.head?.any Char.isUpper

/-- The item that a name stands for. -/
def Expr.ofName (name : String) : Expr :=
  if isNonterminalName name then .nonterminal ⟨name⟩ else .terminal name

theorem Expr.wellFormed_ofName (name : String) : (Expr.ofName name).WellFormed := by
  unfold ofName
  split
  · exact .nonterminal _
  · exact .terminal _

/-! ## Rules -/

/-- The lexemes between two line breaks and the offset at which the line ends. -/
structure Line where
  lexemes : List LocatedLexeme
  stop : Nat

/-- The lines that a line break ends, and the lexemes after the last line break. -/
def Line.splitAll : List LocatedLexeme → List Line × List LocatedLexeme
  | [] => ([], [])
  | lexeme :: lexemes =>
    let split := splitAll lexemes
    if lexeme.lexeme = .newline then (⟨[], lexeme.start⟩ :: split.1, split.2)
    else match split.1 with
      | [] => ([], lexeme :: split.2)
      | line :: lines => (⟨lexeme :: line.lexemes, line.stop⟩ :: lines, split.2)

/-- Reads the alternatives of a right-hand side, after `items` of the first one are read. Line
breaks, of which a line has none, would be passed over. -/
def readAlternatives (stop : Nat) (items : List Expr) :
    List LocatedLexeme → Except Rejection (List Expr)
  | [] => if items.isEmpty then .error ⟨stop, .emptyAlternative⟩ else .ok [.concat items]
  | ⟨start, _, lexeme⟩ :: rest =>
    match lexeme with
    | .ident name => readAlternatives stop (items ++ [.ofName name]) rest
    | .quoted text => readAlternatives stop (items ++ [.terminal text]) rest
    | .epsilon => readAlternatives stop (items ++ [.empty]) rest
    | .pipe =>
      if items.isEmpty then .error ⟨start, .emptyAlternative⟩
      else (readAlternatives stop [] rest).map (.concat items :: ·)
    | .arrow => .error ⟨start, .unexpectedArrow⟩
    | .newline => readAlternatives stop items rest

/-- Reads the rule on a line. An empty line holds none. -/
def Line.rule? (line : Line) : Except Rejection (Option Rule) :=
  match line.lexemes with
  | [] => .ok none
  | ⟨start, _, .ident name⟩ :: rest =>
    if isNonterminalName name then
      match rest with
      | ⟨_, _, .arrow⟩ :: rest =>
        (readAlternatives line.stop [] rest).map fun alternatives =>
          some ⟨⟨name⟩, .anyOf alternatives⟩
      | ⟨start, _, _⟩ :: _ => .error ⟨start, .missingArrow⟩
      | [] => .error ⟨line.stop, .missingArrow⟩
    else .error ⟨start, .lhsTerminal name⟩
  | ⟨start, _, .arrow⟩ :: _ => .error ⟨start, .missingLhs⟩
  | ⟨start, _, _⟩ :: _ => .error ⟨start, .lhsNotNonterminal⟩

/-- Reads the rules on all lines, up to the first bad one. -/
def Line.rules : List Line → Except Rejection (List Rule)
  | [] => .ok []
  | line :: lines =>
    match line.rule? with
    | .error rejection => .error rejection
    | .ok rule? => (rules lines).map (rule?.toList ++ ·)

theorem map_eq_ok_iff {ε α β : Type} {result : Except ε α} {f : α → β} {b : β} :
    result.map f = .ok b ↔ ∃ a, result = .ok a ∧ f a = b := by
  cases result <;> simp [Except.map]

theorem wellFormed_of_readAlternatives {stop : Nat} {items : List Expr}
    {lexemes : List LocatedLexeme} {alternatives : List Expr}
    (hitems : ∀ item ∈ items, item.WellFormed)
    (h : readAlternatives stop items lexemes = .ok alternatives) :
    alternatives ≠ [] ∧ ∀ e ∈ alternatives, e.WellFormed := by
  have snoc {items : List Expr} {item : Expr} (hitems : ∀ item ∈ items, item.WellFormed)
      (hitem : item.WellFormed) : ∀ e ∈ items ++ [item], e.WellFormed :=
    fun e he => (List.mem_append.mp he).elim (hitems e) fun he => List.mem_singleton.mp he ▸ hitem
  fun_induction readAlternatives stop items lexemes generalizing alternatives with
  | case1 | case6 | case8 => simp at h
  | case2 => cases h; simpa using Expr.wellFormed_concat hitems
  | case3 _ _ _ _ name ih => exact ih (snoc hitems (Expr.wellFormed_ofName name)) h
  | case4 _ _ _ _ text ih => exact ih (snoc hitems (.terminal text)) h
  | case5 _ _ _ _ ih => exact ih (snoc hitems .empty) h
  | case7 items _ _ _ _ ih =>
    obtain ⟨rest, hrest, rfl⟩ := map_eq_ok_iff.mp h
    obtain ⟨-, hrest⟩ := ih (by simp) hrest
    exact ⟨by simp, List.forall_mem_cons.mpr ⟨Expr.wellFormed_concat hitems, hrest⟩⟩
  | case9 _ _ _ _ ih => exact ih hitems h

theorem Line.wellFormed_of_rule? {line : Line} {rule : Rule} (h : line.rule? = .ok (some rule)) :
    rule.rhs.WellFormed := by
  unfold rule? at h
  split at h
  · simp at h
  · split at h
    · split at h
      · obtain ⟨alternatives, halts, hrule⟩ := map_eq_ok_iff.mp h
        obtain rfl := Option.some.inj hrule
        obtain ⟨hne, halts⟩ := wellFormed_of_readAlternatives (by simp) halts
        exact Expr.wellFormed_anyOf hne halts
      · simp at h
      · simp at h
    · simp at h
  · simp at h
  · simp at h

theorem Line.wellFormed_of_rules {lines : List Line} {rules : List Rule}
    (h : Line.rules lines = .ok rules) : ∀ rule ∈ rules, rule.rhs.WellFormed := by
  fun_induction Line.rules lines generalizing rules with
  | case1 => cases h; simp
  | case2 => simp at h
  | case3 line lines rule? hrule ih =>
    obtain ⟨rest, hrest, rfl⟩ := map_eq_ok_iff.mp h
    intro rule hr
    rcases List.mem_append.mp hr with hr | hr
    · rw [Option.mem_toList] at hr
      exact wellFormed_of_rule? (hr ▸ hrule)
    · exact ih hrest rule hr

end ContextFree
