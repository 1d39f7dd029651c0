import ContextFree.Source.Lexing
import ContextFree.Source.Line

/-!
# Reading grammars

A source is a grammar when each of its lines is empty or a rule. The first bad line decides about
the error. A line that is never finished, because its last lexeme is not, is bad for that reason.
-/

namespace ContextFree

/-- The rules of a source, one for every line that is not empty. -/
def readRules (source : String) : Except Rejection (List Rule) :=
  let lexing := Lexing.ofSource source
  let split := Line.splitAll lexing.lexemes
  match lexing.fault? with
  | none => Line.rules (split.1 ++ [⟨split.2, Text.byteLength source.toList⟩])
  | some fault =>
    match Line.rules split.1 with
    | .error rejection => .error rejection
    | .ok _ => .error ⟨fault.1, .lexical fault.2⟩

theorem wellFormed_of_readRules {source : String} {rules : List Rule}
    (h : readRules source = .ok rules) : ∀ rule ∈ rules, rule.rhs.WellFormed := by
  simp only [readRules] at h
  split at h
  · exact Line.wellFormed_of_rules h
  · split at h <;> simp at h

namespace Grammar

/-- Reads the grammar that a source describes. -/
def parse (source : String) : Except Rejection Grammar :=
  match h : readRules source with
  | .error rejection => .error rejection
  | .ok rules => .ok (ofRules rules (wellFormed_of_readRules h))

theorem parse_eq_error_iff {source : String} {rejection : Rejection} :
    parse source = .error rejection ↔ readRules source = .error rejection := by
  unfold parse
  split <;> simp_all

theorem parse_eq_ok_iff {source : String} {g : Grammar} :
    parse source = .ok g ↔ ∃ rules, readRules source = .ok rules ∧ g.rules = rules.eraseDups := by
  unfold parse
  split <;> simp_all [Grammar.ext_iff, eq_comm]

end Grammar

end ContextFree
