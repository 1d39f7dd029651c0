import ContextFree.Cyk.Derivations
import ContextFree.Grammar.NormalForm
import ContextFree.Unger.Search

/-!
# The journal of a run

What a run reports beside its results: one line per entry, of which the reader asks for the more
important levels. Every stage of a normalization reports the rounds of its closures and, after them,
how many rules it was given and how many it left. Symbols and rules are reported by their place in
the grammar, counted from 0.
-/

namespace ContextFree

namespace Journal

/-- How important an entry is, the most important level first. -/
inductive Level where
  | error
  | warn
  | info
  | debug
  | trace
deriving DecidableEq

namespace Level

def name : Level → String
  | error => "ERROR"
  | warn => "WARN"
  | info => "INFO"
  | debug => "DEBUG"
  | trace => "TRACE"

/-- How often more detail has to be asked for before entries of this level are shown. -/
def threshold : Level → Nat
  | error | warn => 0
  | info => 1
  | debug => 2
  | trace => 3

end Level

/-- One line of the journal. -/
structure Entry where
  level : Level
  message : String
deriving DecidableEq

namespace Entry

def error (message : String) : Entry := ⟨.error, message⟩

def warn (message : String) : Entry := ⟨.warn, message⟩

def info (message : String) : Entry := ⟨.info, message⟩

def debug (message : String) : Entry := ⟨.debug, message⟩

def trace (message : String) : Entry := ⟨.trace, message⟩

/-- The line for an entry. -/
def line (entry : Entry) : String :=
  entry.level.name ++ " - " ++ entry.message ++ "\n"

end Entry

/-- The lines of the entries that are shown after asking `verbosity` times for more detail. -/
def text (verbosity : Nat) (entries : List Entry) : String :=
  String.join ((entries.filter fun entry => entry.level.threshold ≤ verbosity).map Entry.line)

/-! ## Normalizing -/

/-- One entry for each round of a closure. -/
def closure {α : Type} [DecidableEq α] (step : Step α) (seed : List α) : List Entry :=
  (step.roundsFrom seed).mapIdx fun index round =>
    let number := index + 1
    let known := round.known.length
    let found := round.found.length
    .trace s!"closure round {number}: {known} known, {found} new"

/-- An entry if there is no rule for the start symbol among `rules`. -/
def rooted (start? : Option Nonterminal) (rules : List Rule) : List Entry :=
  match start? with
  | none => []
  | some start =>
    if rules.any (fun rule => decide (rule.lhs = start)) then []
    else [.debug ("no rules left for start symbol " ++ start.name)]

/-- The last entry of a stage: what it did to the rules of `before`. -/
def stage (before : Grammar) (name : String) (details : String) (after : Nat) : Entry :=
  let rules := before.rules.length
  .debug s!"{name}: {details}{rules} -> {after} rules"

def eliminateEpsilon (a : Arithmetic) (g : Grammar) : List Entry :=
  let split := g.splitAlternatives
  let primes := split.primes.map Prod.snd
  let rules := split.primedRules a
  let nullable := split.nullable.length
  let primed := primes.length
  let orphaned := (split.orphans a).length
  closure split.nullableStep split.directlyNullable ++
    closure (Rule.orphanStep rules primes) (Rule.withoutRules rules primes) ++
    rooted split.start? (Rule.avoiding (split.orphans a) rules) ++
    [stage g "remove_epsilon_rules" s!"{nullable} nullable, {primed} primed, {orphaned} orphaned, "
      (g.eliminateEpsilon a).rules.length]

def eliminateUnits (g : Grammar) : List Entry :=
  let split := g.splitAlternatives
  let targets := (split.rules.filter fun rule => !rule.isSelfLoop).filterMap fun rule =>
    rule.rhs.nonterminal?
  targets.flatMap (fun target => closure split.unitStep [target]) ++
    rooted split.start? (split.rules.flatMap split.resolveUnit) ++
    [stage g "remove_unit_rules" "" g.eliminateUnits.rules.length]

def productivePart (g : Grammar) : List Entry :=
  closure g.productiveStep [] ++
    rooted g.start? (g.rules.filter g.productiveRules.contains) ++
    [stage g "remove_non_productive_rules" "" g.productivePart.rules.length]

def reachablePart (g : Grammar) : List Entry :=
  match g.start? with
  | none => []
  | some start =>
    let reachable := (g.reachableFrom start).length
    closure g.reachableStep [start] ++
      [stage g "remove_unreachable_nonterminals" s!"{reachable} reachable, "
        g.reachablePart.rules.length]

def usefulPart (g : Grammar) : List Entry :=
  productivePart g ++ reachablePart g.productivePart

def binarize (g : Grammar) : List Entry :=
  let pairs := g.pairs
  let terminals := pairs.2.terminals
  let folds := pairs.2.folds
  stage g "binarize" s!"{terminals} terminals and {folds} folds introduced, " pairs.1.length ::
    rooted g.start? pairs.1

/-- The entries of all stages on the way to the normal form. -/
def toCnf (a : Arithmetic) (g : Grammar) : List Entry :=
  let split := g.splitAlternatives
  let positive := split.eliminateEpsilon a
  let proper := positive.eliminateUnits
  let before := g.rules.length
  let after := (g.toCnf a).rules.length
  eliminateEpsilon a split ++ eliminateUnits positive ++ usefulPart proper ++
    binarize proper.usefulPart ++ [.debug s!"to_cnf: {before} rules -> {after} rules"]

/-! ## Reading and parsing -/

/-- A grammar was read. -/
def grammar (g : Grammar) : Entry :=
  let rules := g.rules.length
  let nonterminals := g.nonterminals.length
  .debug s!"parsed grammar with {rules} rules over {nonterminals} nonterminals"

/-- A grammar in normal form was prepared for filling charts. -/
def pairRules (cnf : Grammar) : Entry :=
  let nonterminals := cnf.nonterminals.length
  let pairs := cnf.pairRules.length
  let terminals := cnf.terminals.length
  .debug s!"cyk: {nonterminals} nonterminals, {pairs} binary rules, {terminals} terminals"

/-- A goal was worked out. -/
def goal (symbols : List Nonterminal) (goal : Cyk.Goal) (trees : Nat) : Entry :=
  let index := symbols.idxOf goal.symbol
  let start := goal.start
  let length := goal.length
  .trace s!"derivations of {index} at ({start},{length}): {trees}"

/-- The entries of a search in a chart. -/
def cyk (cnf : Grammar) (tokens : List Token) : List Entry :=
  match cnf.start? with
  | none => []
  | some start =>
    let search := Cyk.search cnf start tokens
    let symbols := cnf.nonterminals
    let trees := search.1.length
    let count := tokens.length
    search.2.finished.reverse.map (fun finished => goal symbols finished.1 finished.2) ++
      [.debug s!"cyk: {trees} trees for {count} tokens"]

/-- An attempt was given up. -/
def cycle (rules : List Rule) (attempt : Unger.Attempt) : Entry :=
  let index := rules.idxOf attempt.rule
  let start := attempt.span.start
  let stop := attempt.span.stop
  .trace s!"cycle on rule {index} at ({start}, {stop})"

/-- The entries of a search by Unger's method in a grammar without choices. -/
def unger (split : Grammar) (emptyParts : EmptyParts) (tokens : List Token) : List Entry :=
  match Unger.search split emptyParts tokens with
  | none => []
  | some search =>
    let method := match emptyParts with
      | .forbidden => "unger"
      | .allowed => "unger (epsilon)"
    let trees := search.1.length
    let count := tokens.length
    search.2.cycles.reverse.map (cycle split.rules) ++
      [.debug s!"{method}: {trees} trees for {count} tokens"]

end Journal

end ContextFree
