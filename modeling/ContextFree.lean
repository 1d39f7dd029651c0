import ContextFree.Arithmetic
import ContextFree.Closure
import ContextFree.Cyk.Chart
import ContextFree.Cyk.Derivations
import ContextFree.Distinct
import ContextFree.Expr.Basic
import ContextFree.Expr.WellFormed
import ContextFree.Grammar.Basic
import ContextFree.Grammar.Binary
import ContextFree.Grammar.Choice
import ContextFree.Grammar.Language
import ContextFree.Grammar.NormalForm
import ContextFree.Grammar.Nullable
import ContextFree.Grammar.Unit
import ContextFree.Grammar.Useful
import ContextFree.Journal
import ContextFree.Main
import ContextFree.Names
import ContextFree.Source.Lexing
import ContextFree.Source.Line
import ContextFree.Source.Reader
import ContextFree.Text.Basic
import ContextFree.Text.Utf8
import ContextFree.Tool.Options
import ContextFree.Tool.Run
import ContextFree.Tree
import ContextFree.Unger.Search
import ContextFree.Proofs.Closure
import ContextFree.Proofs.Closure.Rounds
import ContextFree.Proofs.Names
import ContextFree.Proofs.Expr.Denotation
import ContextFree.Proofs.Grammar.Language
import ContextFree.Proofs.Grammar.Extension
import ContextFree.Proofs.Expr.ChoiceFree
import ContextFree.Proofs.Grammar.Choice
import ContextFree.Proofs.Grammar.Binary
import ContextFree.Proofs.Grammar.Unit
import ContextFree.Proofs.Grammar.Useful
import ContextFree.Proofs.Grammar.Nullable
import ContextFree.Proofs.Grammar.Stages
import ContextFree.Proofs.Grammar.NormalForm
import ContextFree.Proofs.Grammar.Atoms
import ContextFree.Proofs.Grammar.Splitting
import ContextFree.Proofs.Grammar.Clean
import ContextFree.Proofs.Grammar.Idempotent
import ContextFree.Proofs.Grammar.Branches
import ContextFree.Proofs.Grammar.StartFirst
import ContextFree.Proofs.Grammar.Primes
import ContextFree.Proofs.Grammar.UnitPaths
import ContextFree.Proofs.Expr.Substitution
import ContextFree.Proofs.Grammar.Inlining
import ContextFree.Proofs.Grammar.Unfolding
import ContextFree.Proofs.Grammar.Pairs
import ContextFree.Proofs.Tree.Derivation
import ContextFree.Proofs.Tree.Usage
import ContextFree.Proofs.Tree.Useful
import ContextFree.Proofs.Grammar.AlreadyNormal
import ContextFree.Proofs.Tree.Placed
import ContextFree.Proofs.Unger.Span
import ContextFree.Proofs.Unger.Search
import ContextFree.Proofs.Unger.Nesting
import ContextFree.Proofs.Unger.Trees
import ContextFree.Proofs.Unger.EmptyParts
import ContextFree.Proofs.Cyk.Chart
import ContextFree.Proofs.Cyk.Derivations
import ContextFree.Proofs.Cyk.Cells
import ContextFree.Proofs.Unger.Normal
import ContextFree.Proofs.Source.Word
import ContextFree.Proofs.Source.Printable
import ContextFree.Proofs.Source.Reading
import ContextFree.Proofs.Source.RoundTrip
import ContextFree.Proofs.Source.Spelling
import ContextFree.Proofs.Source.Tiling
import ContextFree.Proofs.Source.Format
import ContextFree.Proofs.Source.Reader
import ContextFree.Proofs.Source.Joining
import ContextFree.Proofs.Construction
import ContextFree.Proofs.Tool.Options
import ContextFree.Proofs.Tool.Run
import ContextFree.Proofs.Expr.Replacement
import ContextFree.Proofs.Source.Rejection
import ContextFree.Proofs.Names.Requests
import ContextFree.Proofs.Unger.Partitions
