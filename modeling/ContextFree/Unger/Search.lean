import ContextFree.Grammar.Choice
import ContextFree.Tree

/-!
# Unger's method

A span of the input is shared out among the items of a right-hand side: a partition gives each item
its part, and the parts lie side by side in order. Every rule that may produce a span is tried with
every partition of the span among its items. Terminals have to match their part, and nonterminals
are searched on theirs. A rule is not tried on a span while it is being tried there already, which
is what makes the search end on any grammar; the trees that would need it are not found.

The grammar has to be without choices, as `Grammar.splitAlternatives` leaves it.
-/

namespace ContextFree

/-! ## Spans and partitions -/

/-- The tokens from position `start` up to but without position `stop`, counted from 0. -/
structure Span where
  start : Nat
  stop : Nat
deriving DecidableEq

/-- Whether one of several items may get an empty part. -/
inductive EmptyParts where
  | forbidden
  | allowed
deriving DecidableEq

namespace Span

def length (span : Span) : Nat :=
  span.stop - span.start

/-- The lengths that the first of `count` parts may have, when all together have `length`. Unless
empty parts are allowed, every other part needs a token as well. -/
def firstLengths (emptyParts : EmptyParts) (length count : Nat) : List Nat :=
  match emptyParts with
  | .allowed => List.range (length + 1)
  | .forbidden => if count ≤ length then List.range' 1 (length - count + 1) else []

/-- All partitions of a span into `count` parts, ordered by the lengths of the parts. A single part
is the whole span, empty or not. -/
def partitions (emptyParts : EmptyParts) : (count : Nat) → Span → List (List Span)
  | 0, _ => []
  | 1, span => [[span]]
  | count + 2, span =>
    (firstLengths emptyParts span.length (count + 2)).flatMap fun length =>
      (partitions emptyParts (count + 1) ⟨span.start + length, span.stop⟩).map
        (⟨span.start, span.start + length⟩ :: ·)

end Span

/-! ## The search -/

namespace Unger

/-- A rule tried on a span. -/
structure Attempt where
  span : Span
  rule : Rule
deriving DecidableEq

/-- The state of a search: the attempts under way, and the attempts that were given up because they
were under way already, in each case the latest first. -/
structure State where
  active : List Attempt
  cycles : List Attempt

namespace State

/-- Nothing is under way. -/
def initial : State :=
  ⟨[], []⟩

def enter (attempt : Attempt) (state : State) : State :=
  { state with active := attempt :: state.active }

def leave (attempt : Attempt) (state : State) : State :=
  { state with active := state.active.erase attempt }

def giveUp (attempt : Attempt) (state : State) : State :=
  { state with cycles := attempt :: state.cycles }

end State

/-- A search step, which fails when it is nested more deeply than was provided for. -/
abbrev Search := StateT State Option

/-- Whether an item may produce a part of the input at all. -/
def admits (g : Grammar) (tokens : List Token) (item : Expr) (part : Span) : Bool :=
  match item with
  | .terminal token => part.stop == part.start + 1 && tokens[part.start]? == some token
  | .nonterminal symbol => g.rules.any fun rule => rule.lhs = symbol
  | .empty => part.start == part.stop
  | .seq _ | .alt _ => false

/-- The partitions of the span that each item of the rule admits. -/
def candidates (g : Grammar) (emptyParts : EmptyParts) (tokens : List Token) (attempt : Attempt) :
    List (List (Expr × Span)) :=
  let items := attempt.rule.rhs.items
  ((attempt.span.partitions emptyParts items.length).map items.zip).filter fun parts =>
    parts.all fun part => admits g tokens part.1 part.2

/-- All lists of children, one for each item on its part, when `derive` finds the trees for a
nonterminal on a span. An item without trees ends the search for the items after it. -/
def combine (derive : Nonterminal → Span → Search (List Tree)) :
    List (Expr × Span) → Search (List (List Tree))
  | [] => pure [[]]
  | (item, part) :: rest => do
    let options ← match item with
      | .terminal token => pure [.leaf token]
      | .empty => pure [.epsilon]
      | .nonterminal symbol => derive symbol part
      | .seq _ | .alt _ => pure []
    if options.isEmpty then pure []
    else
      let tails ← combine derive rest
      pure (options.flatMap fun tree => tails.map (tree :: ·))

/-- The trees that apply a rule to a span. -/
def fit (g : Grammar) (emptyParts : EmptyParts) (tokens : List Token) :
    (depth : Nat) → Attempt → Search (List Tree)
  | 0, _ => failure
  | depth + 1, attempt => do
    if attempt ∈ (← get).active then
      modify (State.giveUp attempt)
      pure []
    else
      modify (State.enter attempt)
      let derive (symbol : Nonterminal) (part : Span) : Search (List Tree) :=
        (g.rulesFor symbol).flatMapM fun rule => fit g emptyParts tokens depth ⟨part, rule⟩
      let children ← (candidates g emptyParts tokens attempt).flatMapM (combine derive)
      modify (State.leave attempt)
      pure (children.map (.node attempt.rule.lhs))

/-- How deeply attempts can be nested: attempts within each other differ in rule or span, save for
the innermost one. -/
def maxDepth (g : Grammar) (tokens : List Token) : Nat :=
  g.rules.length * ((tokens.length + 1) * (tokens.length + 1)) + 1

/-- The trees that a start rule yields on the whole input, and how the search went. -/
def search (g : Grammar) (emptyParts : EmptyParts) (tokens : List Token) :
    Option (List Tree × State) :=
  (g.startRules.flatMapM fun rule =>
    fit g emptyParts tokens (maxDepth g tokens) ⟨⟨0, tokens.length⟩, rule⟩).run .initial

end Unger

namespace Grammar

/-- The derivation trees of the tokens, found by Unger's method. -/
def ungerTrees (g : Grammar) (emptyParts : EmptyParts) (tokens : List Token) : List Tree :=
  (Unger.search g.splitAlternatives emptyParts tokens).elim [] Prod.fst

end Grammar

end ContextFree
