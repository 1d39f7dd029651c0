import ContextFree.Distinct
import ContextFree.Expr.WellFormed

/-!
# Grammars

A grammar is a list of distinct rules with well-formed right-hand sides. The order of the rules is
kept everywhere, and the left-hand side of the first rule is the start symbol. A grammar is written
with one rule a line, the arrows of all rules below each other.
-/

namespace ContextFree

/-- A rule lets its left-hand side stand for its right-hand side. -/
structure Rule where
  lhs : Nonterminal
  rhs : Expr
deriving DecidableEq

namespace Rule

/-- A rule for the empty string. -/
def isEpsilon (rule : Rule) : Bool :=
  decide (rule.rhs = .empty)

/-- A rule whose right-hand side is a single nonterminal. -/
def isUnit (rule : Rule) : Bool :=
  rule.rhs.nonterminal?.isSome

def isSequence (rule : Rule) : Bool :=
  rule.rhs.isSeq

/-- A unit rule that leads back to its own left-hand side. -/
def isSelfLoop (rule : Rule) : Bool :=
  decide (rule.rhs = .nonterminal rule.lhs)

/-- Whether the rule produces exactly this token. -/
def producesToken (rule : Rule) (token : Token) : Bool :=
  decide (rule.rhs = .terminal token)

end Rule

/-- Distinct rules in order, their right-hand sides well-formed. -/
structure Grammar where
  rules : List Rule
  nodup : rules.Nodup
  wellFormed : ∀ rule ∈ rules, rule.rhs.WellFormed

namespace Grammar

@[ext] theorem ext {g h : Grammar} (rules : g.rules = h.rules) : g = h := by
  cases g; cases h; simp_all

instance : DecidableEq Grammar :=
  fun _ _ => decidable_of_iff _ ⟨ext, congrArg rules⟩

/-! ## Construction -/

/-- The grammar with the given rules; of equal rules the first one counts. -/
def ofRules (rules : List Rule) (wellFormed : ∀ rule ∈ rules, rule.rhs.WellFormed) : Grammar where
  rules := rules.eraseDups
  nodup := nodup_eraseDups rules
  wellFormed rule h := wellFormed rule (List.mem_eraseDups.mp h)

/-- The grammar with the given rules, if all right-hand sides are well-formed. -/
def ofRules? (rules : List Rule) : Option Grammar :=
  if h : ∀ rule ∈ rules, rule.rhs.WellFormed then some (ofRules rules h) else none

/-- The grammar without rules. -/
def empty : Grammar :=
  ⟨[], List.nodup_nil, by simp⟩

/-- The grammar with the given rules, those for `start` moved to the front. Without a rule for the
start symbol nothing is left. -/
def rooted (start? : Option Nonterminal) (rules : List Rule)
    (wellFormed : ∀ rule ∈ rules, rule.rhs.WellFormed) : Grammar :=
  match start? with
  | none => ofRules rules wellFormed
  | some start =>
    if rules.any (fun rule => decide (rule.lhs = start)) then
      ofRules (rules.filter (fun rule => decide (rule.lhs = start)) ++
          rules.filter fun rule => !decide (rule.lhs = start)) (by
        intro rule h
        rw [List.mem_append, List.mem_filter, List.mem_filter] at h
        exact wellFormed rule (h.elim And.left And.left))
    else empty

@[simp] theorem rules_ofRules {rules : List Rule} {h : ∀ rule ∈ rules, rule.rhs.WellFormed} :
    (ofRules rules h).rules = rules.eraseDups := rfl

@[simp] theorem mem_ofRules {rules : List Rule} {h : ∀ rule ∈ rules, rule.rhs.WellFormed}
    {rule : Rule} : rule ∈ (ofRules rules h).rules ↔ rule ∈ rules :=
  List.mem_eraseDups

@[simp] theorem rules_empty : empty.rules = [] := rfl

/-- A grammar is made of its own rules. -/
@[simp] theorem ofRules_rules (g : Grammar) : ofRules g.rules g.wellFormed = g :=
  ext (eraseDups_eq_self g.nodup)

/-! ## Queries -/

/-- The start symbol. -/
def start? (g : Grammar) : Option Nonterminal :=
  g.rules.head?.map Rule.lhs

/-- The rules for a nonterminal, in order. -/
def rulesFor (g : Grammar) (symbol : Nonterminal) : List Rule :=
  g.rules.filter fun rule => decide (rule.lhs = symbol)

/-- The rules for the start symbol, in order. -/
def startRules (g : Grammar) : List Rule :=
  g.start?.elim [] g.rulesFor

/-- The nonterminals in order of appearance, each rule's left-hand side first. -/
def nonterminals (g : Grammar) : List Nonterminal :=
  (g.rules.flatMap fun rule => rule.lhs :: rule.rhs.nonterminals).eraseDups

/-- The tokens that occur in the rules, in order of appearance. -/
def terminals (g : Grammar) : List Token :=
  (g.rules.flatMap fun rule => rule.rhs.tokens).eraseDups

@[simp] theorem mem_rulesFor {g : Grammar} {symbol : Nonterminal} {rule : Rule} :
    rule ∈ g.rulesFor symbol ↔ rule ∈ g.rules ∧ rule.lhs = symbol := by
  simp [rulesFor]

theorem mem_nonterminals {g : Grammar} {symbol : Nonterminal} : symbol ∈ g.nonterminals ↔
    ∃ rule ∈ g.rules, symbol = rule.lhs ∨ symbol ∈ rule.rhs.nonterminals := by
  simp [nonterminals]

theorem mem_terminals {g : Grammar} {token : Token} : token ∈ g.terminals ↔
    ∃ rule ∈ g.rules, token ∈ rule.rhs.tokens := by
  simp [terminals]

/-! ## Comparison -/

/-- Two grammars have the same rules, in whatever order. -/
def SameRules (g h : Grammar) : Prop :=
  ∀ rule, rule ∈ g.rules ↔ rule ∈ h.rules

instance (g h : Grammar) : Decidable (g.SameRules h) :=
  decidable_of_iff ((∀ rule ∈ g.rules, rule ∈ h.rules) ∧ ∀ rule ∈ h.rules, rule ∈ g.rules)
    ⟨fun ⟨gh, hg⟩ rule => ⟨gh rule, hg rule⟩, fun h => ⟨fun r => (h r).mp, fun r => (h r).mpr⟩⟩

end Grammar

/-! ## Written form -/

namespace Rule

/-- The rule with its left-hand side filled up with blanks to `width` characters. -/
def paddedText (width : Nat) (rule : Rule) : String :=
  rule.lhs.name ++ String.ofList (List.replicate (width - rule.lhs.name.length) ' ') ++ " -> " ++
    rule.rhs.text

/-- The written form of a rule. -/
def text (rule : Rule) : String :=
  rule.paddedText 0

end Rule

namespace Grammar

/-- The length of the longest left-hand side, in characters. -/
def lhsWidth (g : Grammar) : Nat :=
  g.rules.foldl (fun width rule => max width rule.lhs.name.length) 0

/-- The written form of a grammar, without a line break at the end. -/
def text (g : Grammar) : String :=
  String.intercalate "\n" (g.rules.map (Rule.paddedText g.lhsWidth))

end Grammar

end ContextFree
