import MixfixLambda.Bind.Binder
import MixfixLambda.Bind.Encoding
import MixfixLambda.Bind.Error
import MixfixLambda.Bind.Module
import MixfixLambda.Bind.Pattern
import MixfixLambda.Bind.Prelude
import MixfixLambda.Bind.Tasks
import MixfixLambda.Cli.Arguments
import MixfixLambda.Cli.Console
import MixfixLambda.Cli.Execution
import MixfixLambda.Cli.Host
import MixfixLambda.Cli.LineLoop
import MixfixLambda.Cli.Report
import MixfixLambda.Machine.Arithmetic
import MixfixLambda.Machine.Backtrace
import MixfixLambda.Machine.Fault
import MixfixLambda.Machine.Heap
import MixfixLambda.Machine.Live
import MixfixLambda.Machine.Readback
import MixfixLambda.Machine.Run
import MixfixLambda.Machine.Spine
import MixfixLambda.Machine.Step
import MixfixLambda.Machine.Stream
import MixfixLambda.Main
import MixfixLambda.Parse.Bracket
import MixfixLambda.Parse.Combine
import MixfixLambda.Parse.Declare
import MixfixLambda.Parse.Error
import MixfixLambda.Parse.Parser
import MixfixLambda.Parse.Reduce
import MixfixLambda.Parse.State
import MixfixLambda.Program.Loading
import MixfixLambda.Report.Diagnostic
import MixfixLambda.Report.Excerpt
import MixfixLambda.Report.Excerpt.Printer
import MixfixLambda.Report.Explanation
import MixfixLambda.Report.Failure
import MixfixLambda.Report.Printer
import MixfixLambda.Report.SourceLine
import MixfixLambda.Report.Style
import MixfixLambda.Source.Integer
import MixfixLambda.Source.Span
import MixfixLambda.Source.Tag
import MixfixLambda.Syntax.Default
import MixfixLambda.Syntax.Registry
import MixfixLambda.Syntax.Rule
import MixfixLambda.Term.Basic
import MixfixLambda.Term.Builtin
import MixfixLambda.Term.Printer
import MixfixLambda.Text.Alphabetic
import MixfixLambda.Text.Blank
import MixfixLambda.Text.CharRange
import MixfixLambda.Text.Escape
import MixfixLambda.Text.GraphemeExtend
import MixfixLambda.Text.Numeric
import MixfixLambda.Text.Printable
import MixfixLambda.Text.Utf8
import MixfixLambda.Text.Width
import MixfixLambda.Token.Basic
import MixfixLambda.Token.Cursor
import MixfixLambda.Token.Error
import MixfixLambda.Token.Lexer
import MixfixLambda.Token.Stream
import MixfixLambda.Tree.Agreement
import MixfixLambda.Tree.Basic
import MixfixLambda.Tree.Extent
import MixfixLambda.Tree.Mentions
import MixfixLambda.Tree.Printer
import MixfixLambda.Proofs.Success
import MixfixLambda.Proofs.Bind.Encoding
import MixfixLambda.Proofs.Bind.Binder
import MixfixLambda.Proofs.Bind.Module
import MixfixLambda.Proofs.Machine.Rules
import MixfixLambda.Proofs.Machine.Addresses
import MixfixLambda.Proofs.Machine.Sharing
import MixfixLambda.Proofs.Machine.Scoping
import MixfixLambda.Proofs.Machine.Acyclic
import MixfixLambda.Proofs.Bind.Prelude
import MixfixLambda.Proofs.ByName.Reduction
import MixfixLambda.Proofs.ByName.Numeral
import MixfixLambda.Proofs.Machine.Purity
import MixfixLambda.Proofs.ByName.Decode
import MixfixLambda.Proofs.ByName.Origin
import MixfixLambda.Proofs.ByName.Simulation
import MixfixLambda.Proofs.ByName.Moves
import MixfixLambda.Proofs.ByName.Outcomes
import MixfixLambda.Proofs.ByName.Agreement
import MixfixLambda.Proofs.Machine.Residue
import MixfixLambda.Proofs.Bind.Occurrence
import MixfixLambda.Proofs.Tree.Unlocated
import MixfixLambda.Proofs.Token.Spelling
import MixfixLambda.Proofs.Token.Literal
import MixfixLambda.Proofs.Syntax.Default
import MixfixLambda.Proofs.Parse.Reading
import MixfixLambda.Proofs.Tree.Standard
import MixfixLambda.Proofs.Parse.Bracket
import MixfixLambda.Proofs.Parse.Construct
import MixfixLambda.Proofs.Parse.Chain
import MixfixLambda.Proofs.Parse.Printed
import MixfixLambda.Proofs.Parse.RoundTrip
import MixfixLambda.Proofs.Tree.Core
import MixfixLambda.Proofs.Token.Lexical
import MixfixLambda.Proofs.Parse.Waiting
import MixfixLambda.Proofs.Parse.Invariant
import MixfixLambda.Proofs.Parse.Source
import MixfixLambda.Proofs.Tree.Parts
import MixfixLambda.Proofs.Tree.Commas
import MixfixLambda.Proofs.Syntax.Registry
import MixfixLambda.Proofs.Syntax.Tables
import MixfixLambda.Proofs.Parse.Grouping
import MixfixLambda.Proofs.Parse.Precedence
import MixfixLambda.Proofs.Parse.Line
import MixfixLambda.Proofs.Parse.Step
import MixfixLambda.Proofs.Parse.Declaration
import MixfixLambda.Proofs.Parse.Stack
import MixfixLambda.Proofs.Parse.Scopes
import MixfixLambda.Proofs.Parse.Restored
import MixfixLambda.Proofs.Parse.Known
import MixfixLambda.Proofs.Parse.Pairs
import MixfixLambda.Proofs.Parse.Words
import MixfixLambda.Proofs.Parse.Balance
import MixfixLambda.Proofs.Parse.Commas
import MixfixLambda.Proofs.Parse.Stray
import MixfixLambda.Proofs.Parse.Shape
import MixfixLambda.Proofs.Tree.Leaves
import MixfixLambda.Proofs.Parse.Literals
import MixfixLambda.Proofs.Tree.Sections
import MixfixLambda.Proofs.Parse.Sections
import MixfixLambda.Proofs.Tree.Roots
import MixfixLambda.Proofs.Parse.Holding
import MixfixLambda.Proofs.Parse.Unspaced
import MixfixLambda.Proofs.Bind.Sections
import MixfixLambda.Proofs.Tree.Congruence
import MixfixLambda.Proofs.Parse.Mirror
import MixfixLambda.Proofs.Parse.Followed
import MixfixLambda.Proofs.Parse.Layout
import MixfixLambda.Proofs.Term.Beta
import MixfixLambda.Proofs.Bind.Matching
import MixfixLambda.Proofs.Machine.Streams
import MixfixLambda.Proofs.Machine.Episodes
import MixfixLambda.Proofs.Machine.Ordering
import MixfixLambda.Proofs.Machine.Evaluation
import MixfixLambda.Proofs.Machine.Recursion
import MixfixLambda.Proofs.Machine.Echo
import MixfixLambda.Proofs.Token.Extent
import MixfixLambda.Proofs.Token.Cover
import MixfixLambda.Proofs.Parse.Citation
import MixfixLambda.Proofs.Term.Place
import MixfixLambda.Proofs.Bind.Place
import MixfixLambda.Proofs.Bind.Located
import MixfixLambda.Proofs.Machine.Location
import MixfixLambda.Proofs.Bind.Dispatch
import MixfixLambda.Proofs.Bind.Effect
import MixfixLambda.Proofs.Bind.Tasks
import MixfixLambda.Proofs.Bind.Restore
import MixfixLambda.Proofs.Bind.Lookups
import MixfixLambda.Proofs.Machine.Input
import MixfixLambda.Proofs.Machine.Abort
import MixfixLambda.Proofs.Machine.Scene
import MixfixLambda.Proofs.Machine.Iteration
import MixfixLambda.Proofs.Machine.Embedding
import MixfixLambda.Proofs.Machine.Arithmetic
import MixfixLambda.Proofs.Machine.Needs
import MixfixLambda.Proofs.Machine.Digits
import MixfixLambda.Proofs.Machine.Show
import MixfixLambda.Proofs.Tree.Declaration
import MixfixLambda.Proofs.Parse.Performed
import MixfixLambda.Proofs.Parse.Inside
import MixfixLambda.Proofs.Parse.Parenthesis
import MixfixLambda.Proofs.Token.Parenthesis
import MixfixLambda.Proofs.Parse.Items
import MixfixLambda.Proofs.Token.Numeral
import MixfixLambda.Proofs.Token.Quoted
import MixfixLambda.Proofs.Tree.Nesting
import MixfixLambda.Proofs.Parse.Laid
import MixfixLambda.Proofs.Bind.Uses
import MixfixLambda.Proofs.Bind.Unused
import MixfixLambda.Proofs.Bind.Warnings
import MixfixLambda.Proofs.Bind.Operands
import MixfixLambda.Proofs.Bind.Names
import MixfixLambda.Proofs.Machine.Change
import MixfixLambda.Proofs.Machine.Interruption
import MixfixLambda.Proofs.Tree.Markers
import MixfixLambda.Proofs.Machine.Reporting
import MixfixLambda.Proofs.Machine.Readback
import MixfixLambda.Proofs.Token.Position
