import Seudocodigo.Action
import Seudocodigo.Binary64
import Seudocodigo.Binary64.Shortest
import Seudocodigo.Binary64.Text
import Seudocodigo.CommandLine
import Seudocodigo.CommandLine.Options
import Seudocodigo.Compile
import Seudocodigo.Event
import Seudocodigo.Expression
import Seudocodigo.Expression.Code
import Seudocodigo.Expression.Parse
import Seudocodigo.Expression.Typing
import Seudocodigo.FileTree
import Seudocodigo.Graph
import Seudocodigo.Graph.Listing
import Seudocodigo.Graph.Walk
import Seudocodigo.LexicalError
import Seudocodigo.Location
import Seudocodigo.LogFilter
import Seudocodigo.Main
import Seudocodigo.Module
import Seudocodigo.Module.Flow
import Seudocodigo.Module.Parse
import Seudocodigo.Module.Typing
import Seudocodigo.NameMap
import Seudocodigo.Operator
import Seudocodigo.Parse
import Seudocodigo.Scope
import Seudocodigo.Signature
import Seudocodigo.Statement
import Seudocodigo.Statement.Flow
import Seudocodigo.Statement.Parse
import Seudocodigo.Statement.Typing
import Seudocodigo.SyntaxError
import Seudocodigo.Text.Alphabetic
import Seudocodigo.Text.Blank
import Seudocodigo.Text.Numeric
import Seudocodigo.Text.Pieces
import Seudocodigo.Text.Runs
import Seudocodigo.Token
import Seudocodigo.Token.Cursor
import Seudocodigo.Token.Lexeme
import Seudocodigo.Token.Scan
import Seudocodigo.Ty
import Seudocodigo.TypeError
import Seudocodigo.Value
import Seudocodigo.Proofs.Expression.Climbing
import Seudocodigo.Proofs.Expression.Budget
import Seudocodigo.Proofs.Expression.Precedence
import Seudocodigo.Proofs.Expression.Local
import Seudocodigo.Proofs.Parse.Reads
import Seudocodigo.Proofs.Grammar
import Seudocodigo.Proofs.Grammar.Expression
import Seudocodigo.Proofs.Grammar.Statement
import Seudocodigo.Proofs.Grammar.Module
import Seudocodigo.Proofs.Grammar.Program
import Seudocodigo.Proofs.Flow.Segment
import Seudocodigo.Proofs.Flow.Follows
import Seudocodigo.Proofs.Flow.Lowering
import Seudocodigo.Proofs.Flow.Paths
import Seudocodigo.Proofs.Expression.Postorder
import Seudocodigo.Proofs.Stack.Machine
import Seudocodigo.Proofs.Stack.Operands
import Seudocodigo.Proofs.Stack.Typed
import Seudocodigo.Proofs.Stack.Balance
import Seudocodigo.Proofs.Stack.Segments
import Seudocodigo.Proofs.Stack.Statements
import Seudocodigo.Proofs.Stack.Checked
import Seudocodigo.Proofs.Stack.Soundness
import Seudocodigo.Proofs.Expression.Formula
import Seudocodigo.Proofs.Expression.Evaluation
import Seudocodigo.Proofs.Token.Lexeme
import Seudocodigo.Proofs.Token.Lines
import Seudocodigo.Proofs.Token.Tiles
import Seudocodigo.Proofs.Stack.Heights
import Seudocodigo.Proofs.Stack.Levels
import Seudocodigo.Proofs.Stack.Balanced
import Seudocodigo.Proofs.Flow.Plan
import Seudocodigo.Proofs.Flow.Wired
import Seudocodigo.Proofs.Flow.Closure
import Seudocodigo.Proofs.Flow.Acyclic
import Seudocodigo.Proofs.Grammar.Order
import Seudocodigo.Proofs.Parse.Blames
import Seudocodigo.Proofs.Blame.Expression
import Seudocodigo.Proofs.Blame.Statement
import Seudocodigo.Proofs.Blame.Module
import Seudocodigo.Proofs.Blame.Program
import Seudocodigo.Proofs.Expression.Parts
import Seudocodigo.Proofs.Expression.Checked
import Seudocodigo.Proofs.Expression.Emission
import Seudocodigo.Proofs.Expression.Settled
import Seudocodigo.Proofs.Statement.Within
import Seudocodigo.Proofs.Flow.Actions
import Seudocodigo.Proofs.Statement.Rows
import Seudocodigo.Proofs.Accepted
import Seudocodigo.Proofs.Resolution
import Seudocodigo.Proofs.References
import Seudocodigo.Proofs.Results
import Seudocodigo.Proofs.Defaults
import Seudocodigo.Proofs.Flow.Regroup
import Seudocodigo.Proofs.Counting
import Seudocodigo.Proofs.Separate
import Seudocodigo.Proofs.Hoisting
import Seudocodigo.Proofs.Cells
import Seudocodigo.Proofs.Token.Reprint
import Seudocodigo.Proofs.Expression.TreeTyping
import Seudocodigo.Proofs.Relocation
import Seudocodigo.Proofs.Parse.InStep
import Seudocodigo.Proofs.InStep.Expression
import Seudocodigo.Proofs.InStep.Statement
import Seudocodigo.Proofs.InStep.Program
import Seudocodigo.Proofs.Layout
import Seudocodigo.Proofs.Lookahead
import Seudocodigo.Proofs.Flow.Chains
import Seudocodigo.Proofs.Token.Faults
import Seudocodigo.Proofs.Delivery
import Seudocodigo.Proofs.Parse.Draws
import Seudocodigo.Proofs.Places
import Seudocodigo.Proofs.Places.Read
import Seudocodigo.Proofs.Places.Reported
import Seudocodigo.Proofs.Flow.Selection
import Seudocodigo.Proofs.Scope
import Seudocodigo.Proofs.Diagnoses
import Seudocodigo.Proofs.Parse.Loops
import Seudocodigo.Proofs.Rounds
import Seudocodigo.Proofs.Progress
