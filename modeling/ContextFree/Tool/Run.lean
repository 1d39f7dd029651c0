import ContextFree.Journal
import ContextFree.Source.Reader
import ContextFree.Text.Utf8
import ContextFree.Tool.Options

/-!
# Running a command

A run succeeds when the chosen method finds a derivation tree for the input. What it shows does not
depend on how much of the journal is asked for. A program that stops at numbers that are no words
may do so when it brings the grammar to normal form.
-/

namespace ContextFree

namespace Tool

/-- What a run leaves: its exit code, what it shows, and its journal. -/
structure Outcome where
  exitCode : Nat
  shown : String
  entries : List Journal.Entry
deriving DecidableEq

/-- A run that fails for the given reason before it shows anything. -/
def Outcome.failure (reason : String) : Outcome :=
  ⟨1, "", [.error reason]⟩

/-- What a parsing method finds, and what is shown before the trees. -/
structure Finding where
  preamble : String
  trees : List Tree
  entries : List Journal.Entry

/-- The tokens of an input. -/
def Options.tokens (options : Options) (input : String) : List Token :=
  if options.separated then (Text.words input.toList).map String.ofList
  else input.toList.map Char.toString

/-- The normal form of the grammar, if it is to be shown. -/
def Options.cnfText (options : Options) (cnf : Grammar) : String :=
  if options.showCnf then cnf.text ++ "\n" else ""

/-- Parses with the chart of the tokens. -/
def findByChart (a : Arithmetic) (options : Options) (g cnf : Grammar) (tokens : List Token) :
    Finding where
  preamble := options.cnfText cnf ++
    if options.showChart then (Chart.ofTokens cnf tokens).text else ""
  trees := Cyk.parse cnf tokens
  entries := Journal.toCnf a g ++ [Journal.pairRules cnf] ++ Journal.cyk cnf tokens

/-- Parses by Unger's method, which makes no charts and needs no normal form. -/
def findByPartition (options : Options) (emptyParts : EmptyParts) (g : Grammar)
    (tokens : List Token) : Finding where
  preamble := ""
  trees := g.ungerTrees emptyParts tokens
  entries :=
    (if options.showChart then [.warn "--table only applies to the cyk parser"] else []) ++
      Journal.unger g.splitAlternatives emptyParts tokens

/-- Parses by the chosen method, unless the program stops on the way to the normal form. -/
def find? (a : Arithmetic) (options : Options) (g : Grammar) (tokens : List Token) :
    Option Finding :=
  match options.method with
  | .cyk => (g.toCnf? a).map fun cnf => findByChart a options g cnf tokens
  | .unger emptyParts =>
    let finding := findByPartition options emptyParts g tokens
    if options.showCnf then
      (g.toCnf? a).map fun cnf =>
        { finding with
          preamble := options.cnfText cnf
          entries := Journal.toCnf a g ++ finding.entries }
    else some finding

/-- The trees with their numbers, or that there are none. -/
def treesText (trees : List Tree) : String :=
  if trees.isEmpty then "input rejected\n"
  else
    let count := trees.length
    String.join (trees.mapIdx fun index tree =>
      let number := index + 1
      s!"--- tree {number} of {count} ---\n" ++ tree.text)

/-- The run of a command when its file holds the grammar `g`, unless the program stops. -/
def Command.runOn? (a : Arithmetic) (command : Command) (g : Grammar) : Option Outcome :=
  let rules := g.rules.length
  (find? a command.options g (command.options.tokens command.input)).map fun finding =>
    { exitCode := if finding.trees.isEmpty then 1 else 0
      shown := finding.preamble ++ treesText finding.trees
      entries := Journal.grammar g :: .info (s!"read {rules} rules from " ++ command.path) ::
        finding.entries }

/-- The run of a command, given the content of its file if there is such a file, unless the program
stops. -/
def Command.run? (a : Arithmetic) (command : Command) (content? : Option (List UInt8)) :
    Option Outcome :=
  match content? with
  | none => some (.failure (command.path ++ ": No such file or directory (os error 2)"))
  | some content =>
    match Text.decode content with
    | .error error => some (.failure (command.path ++ ": " ++ error.message))
    | .ok source =>
      match Grammar.parse source with
      | .error rejection =>
        let diagnostic := rejection.diagnostic
        let position := diagnostic.position source
        let line := position.line
        let column := position.column
        some (.failure (command.path ++ s!":{line}:{column}: " ++ diagnostic.message))
      | .ok g => command.runOn? a g

/-- What is seen of a run from outside. -/
structure Report where
  exitCode : Nat
  stdout : String
  stderr : String
deriving DecidableEq

/-- What is seen of a run that is reported in so much detail. -/
def Outcome.report (verbosity : Nat) (outcome : Outcome) : Report :=
  ⟨outcome.exitCode, outcome.shown, Journal.text verbosity outcome.entries⟩

/-- The report of a program that reads its arguments by `read?`, given the content of the file that
they name. There is none if the arguments are no command or the program stops. -/
def report? (a : Arithmetic) (read? : List String → Option Command) (args : List String)
    (content? : Option (List UInt8)) : Option Report := do
  let command ← read? args
  let outcome ← command.run? a content?
  return outcome.report command.options.verbosity

end Tool

end ContextFree
