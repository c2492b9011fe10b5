import CommandShell.Builtin
import CommandShell.CommandLine.Arguments
import CommandShell.CommandLine.Run
import CommandShell.Decimal.Binary64
import CommandShell.Decimal.Layout
import CommandShell.Decimal.Reading
import CommandShell.Decimal.Shortest
import CommandShell.Error
import CommandShell.Evaluation.Action
import CommandShell.Evaluation.Context
import CommandShell.Evaluation.Evaluator
import CommandShell.Evaluation.Event
import CommandShell.Evaluation.Outcome
import CommandShell.Evaluation.Run
import CommandShell.Files.CivilTime
import CommandShell.Files.Failure
import CommandShell.Files.Layout
import CommandShell.Files.Path
import CommandShell.Files.Status
import CommandShell.Files.Tree
import CommandShell.Files.Walk
import CommandShell.Grammar.Alphabet
import CommandShell.Grammar.Nesting
import CommandShell.Grammar.Rule
import CommandShell.Grammar.Rules
import CommandShell.Grammar.Tree
import CommandShell.Main
import CommandShell.NameMap
import CommandShell.OptionTable
import CommandShell.Program.Escape
import CommandShell.Program.Node
import CommandShell.Program.Piece
import CommandShell.Program.ReadError
import CommandShell.Program.Reader
import CommandShell.Proofs.Evaluation.Builtins
import CommandShell.Proofs.Evaluation.Closure
import CommandShell.Proofs.Evaluation.Completion
import CommandShell.Proofs.Evaluation.DepthBalance
import CommandShell.Proofs.Evaluation.Diagnostics
import CommandShell.Proofs.Evaluation.ExitRequest
import CommandShell.Proofs.Evaluation.FailedBuiltins
import CommandShell.Proofs.Evaluation.FailureOrigin
import CommandShell.Proofs.Evaluation.Fallback
import CommandShell.Proofs.Evaluation.Interpolation
import CommandShell.Proofs.Evaluation.Journal
import CommandShell.Proofs.Evaluation.LineByLine
import CommandShell.Proofs.Evaluation.Steps
import CommandShell.Proofs.Evaluation.Termination
import CommandShell.Proofs.Grammar.Completeness
import CommandShell.Proofs.Grammar.Derivation
import CommandShell.Proofs.Grammar.Lines
import CommandShell.Proofs.Grammar.Matching
import CommandShell.Proofs.Grammar.NestingLimit
import CommandShell.Proofs.Grammar.Numerals
import CommandShell.Proofs.Grammar.Soundness
import CommandShell.Proofs.Program.Rereading
import CommandShell.Proofs.Program.StringLiteral
import CommandShell.Proofs.Program.Substitution
import CommandShell.Session
import CommandShell.Session.Input
import CommandShell.Session.Writer
import CommandShell.Text.Blank
import CommandShell.Text.Hidden
import CommandShell.Text.Lines
import CommandShell.Text.Position
import CommandShell.Text.Quoted
import CommandShell.Text.Raw
import CommandShell.Trace.Reading
import CommandShell.Trace.Show
import CommandShell.Trace.Topic
import CommandShell.Value
import CommandShell.Proofs.Program.Joining
import CommandShell.Proofs.Evaluation.Accounts
import CommandShell.Proofs.Evaluation.CallOrder
import CommandShell.Proofs.Evaluation.Handling
import CommandShell.Proofs.Session.Drivers
import CommandShell.Proofs.Session.Invariant
import CommandShell.Proofs.Program.Spans
import CommandShell.Proofs.Program.NestingScope
import CommandShell.Proofs.Program.NormalForm
import CommandShell.Proofs.Evaluation.StrayFlags
import CommandShell.Proofs.Evaluation.Thresholds
import CommandShell.Proofs.Program.Recutting
import CommandShell.Proofs.Program.Display
import CommandShell.Proofs.Evaluation.Streaming
import CommandShell.Proofs.Session.Written
import CommandShell.Proofs.Evaluation.Governing
import CommandShell.Proofs.Evaluation.ReadOnly
import CommandShell.Proofs.Session.Refusals
import CommandShell.Proofs.Evaluation.NestedProgram
import CommandShell.Proofs.Program.Escapes
import CommandShell.Proofs.Program.Cutting
import CommandShell.Proofs.Program.PieceRules
import CommandShell.Proofs.Grammar.Refusals
import CommandShell.Proofs.Program.StuckTexts
import CommandShell.Proofs.Session.Unreported
import CommandShell.Proofs.Grammar.Lookahead
import CommandShell.Proofs.Grammar.BodyEnds
import CommandShell.Proofs.Grammar.Holes
import CommandShell.Proofs.Program.IntegerLiterals
import CommandShell.Proofs.State.OptionStacks
import CommandShell.Proofs.Text.ByteOrder
import CommandShell.Proofs.Text.Shown
import CommandShell.Proofs.State.VariableStore
import CommandShell.Proofs.Files.CanonicalPaths
import CommandShell.Proofs.State.WorkingDirectory
import CommandShell.Proofs.Program.Words
import CommandShell.Proofs.Program.FlagOrder
import CommandShell.Proofs.Program.ExcessOpenings
import CommandShell.Proofs.Program.ParenthesisDepth
import CommandShell.Proofs.Evaluation.Flattening
