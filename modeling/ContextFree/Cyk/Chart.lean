import ContextFree.Arithmetic
import ContextFree.Grammar.Basic

/-!
# Charts

The chart of an input tells which nonterminals of a grammar in normal form derive which of its
spans. It is filled by increasing length of the spans, since a pair derives a span by way of two
shorter ones. Positions and lengths count from 1.
-/

namespace ContextFree

/-- A rule for a pair of nonterminals. -/
structure PairRule where
  lhs : Nonterminal
  left : Nonterminal
  right : Nonterminal
deriving DecidableEq

namespace Rule

/-- The rule as one for a pair. -/
def pair? (rule : Rule) : Option PairRule :=
  match rule.rhs with
  | .seq [.nonterminal left, .nonterminal right] => some ⟨rule.lhs, left, right⟩
  | _ => none

end Rule

namespace Grammar

/-- The rules for pairs, in order. -/
def pairRules (g : Grammar) : List PairRule :=
  g.rules.filterMap Rule.pair?

/-- The nonterminals with a rule for this token, in order of appearance in the grammar. -/
def producers (g : Grammar) (token : Token) : List Nonterminal :=
  g.nonterminals.filter fun symbol => g.rules.contains ⟨symbol, .terminal token⟩

end Grammar

/-- The nonterminals that derive some span, in order of appearance in the grammar. -/
abbrev Cell := List Nonterminal

/-- The cells of all spans of one length, by position. -/
abbrev Row := List Cell

/-- The rows by length of the spans. -/
structure Chart where
  rows : List Row
deriving DecidableEq

namespace Chart

/-- The cell at a position counted from 0, for a length from 1 on. -/
def cell (rows : List Row) (start length : Nat) : Cell :=
  ((rows[length - 1]?).bind (·[start]?)).getD []

/-- The symbols with a rule for a pair that derives the two halves of a span, for one of the given
ways to halve it. -/
def join (symbols : List Nonterminal) (pairs : List PairRule) (halves : List (Cell × Cell)) :
    Cell :=
  symbols.filter fun symbol => pairs.any fun pair =>
    decide (pair.lhs = symbol) && halves.any fun half =>
      half.1.contains pair.left && half.2.contains pair.right

/-- The row that follows the given ones. -/
def nextRow (g : Grammar) (tokens : List Token) (rows : List Row) : Row :=
  match rows with
  | [] => tokens.map g.producers
  | _ =>
    let symbols := g.nonterminals
    let pairs := g.pairRules
    (List.range (tokens.length - rows.length)).map fun start =>
      join symbols pairs <| (List.range' 1 rows.length).map fun length =>
        (cell rows start length, cell rows (start + length) (rows.length + 1 - length))

/-- The first rows of the chart. -/
def firstRows (g : Grammar) (tokens : List Token) : (count : Nat) → List Row
  | 0 => []
  | count + 1 =>
    let rows := firstRows g tokens count
    rows ++ [nextRow g tokens rows]

/-- The chart of an input. -/
def ofTokens (g : Grammar) (tokens : List Token) : Chart :=
  ⟨firstRows g tokens tokens.length⟩

/-- The number of tokens. -/
def length (chart : Chart) : Nat :=
  chart.rows.length

/-- The last of `length` positions from position `start` on, unless the program stops. -/
def last? (a : Arithmetic) (start length : Nat) : Option Nat :=
  (a.add? start length).bind a.pred?

/-- Looks up the cell of the `length` tokens from position `start` on, which is there if there are
such tokens. The program may stop before it knows. -/
def lookup? (a : Arithmetic) (chart : Chart) (start length : Nat) : Option (Option Cell) :=
  if start = 0 ∨ length = 0 then some none
  else (last? a start length).map fun last =>
    if chart.length < last then none else (chart.rows[length - 1]?).bind (·[start - 1]?)

/-- Whether the chart has the span and the symbol derives it, unless the program stops. -/
def contains? (a : Arithmetic) (chart : Chart) (symbol : Nonterminal) (start length : Nat) :
    Option Bool :=
  (chart.lookup? a start length).map fun cell? => cell?.any (·.contains symbol)

/-- The cell of the `length` tokens from position `start` on, if there are such tokens. -/
def cellAt? (chart : Chart) (start length : Nat) : Option Cell :=
  (chart.lookup? .unbounded start length).join

/-- Whether the chart has the span and the symbol derives it. -/
def contains (chart : Chart) (symbol : Nonterminal) (start length : Nat) : Bool :=
  (chart.cellAt? start length).any (·.contains symbol)

/-- The line for one cell. -/
def cellText (length start : Nat) (cell : Cell) : String :=
  s!"R({start},{length}) = " ++ "\x7b" ++
    String.intercalate ", " (cell.map Nonterminal.name) ++ "\x7d\n"

/-- The heading and the lines for one row. -/
def rowText (length : Nat) (row : Row) : String :=
  s!"--- length {length} ---\n" ++
    String.join (row.mapIdx fun index cell => cellText length (index + 1) cell)

/-- The written form of a chart, by increasing length. -/
def text (chart : Chart) : String :=
  String.join (chart.rows.mapIdx fun index row => rowText (index + 1) row)

end Chart

end ContextFree
