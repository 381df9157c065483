import Scriptlet.Number.Basic
import Scriptlet.Number.Decimal
import Scriptlet.Number.Text
import Scriptlet.Text.Utf8
import Scriptlet.Text.Line
import Scriptlet.Text.Json
import Scriptlet.Token.Basic
import Scriptlet.Token.Lexer
import Scriptlet.Token.Stream
import Scriptlet.Diagnostic
import Scriptlet.Syntax.Basic
import Scriptlet.Syntax.Printer
import Scriptlet.Syntax.Parser.State
import Scriptlet.Syntax.Parser.Expression
import Scriptlet.Syntax.Parser.Statement
import Scriptlet.Scope
import Scriptlet.Value
import Scriptlet.Fault
import Scriptlet.Store
import Scriptlet.Machine
import Scriptlet.Eval
import Scriptlet.Session
import Scriptlet.CommandLine
import Scriptlet.Main
import Scriptlet.Proofs.Lexer
import Scriptlet.Proofs.Lexer.Reference
import Scriptlet.Proofs.Lexer.Stream
import Scriptlet.Proofs.Parser.Action
import Scriptlet.Proofs.Parser.Termination
import Scriptlet.Proofs.Grammar.Derivation
import Scriptlet.Proofs.Grammar.Soundness
import Scriptlet.Proofs.Grammar.Lookahead
import Scriptlet.Proofs.Grammar.Accepting
import Scriptlet.Proofs.Grammar.Completeness
import Scriptlet.Proofs.Lexer.Joined
import Scriptlet.Proofs.Syntax.Proper
import Scriptlet.Proofs.Syntax.Identity
import Scriptlet.Proofs.Syntax.Like
import Scriptlet.Proofs.Parser.Like
import Scriptlet.Proofs.Scope.Walk
import Scriptlet.Proofs.Scope.Visit
import Scriptlet.Proofs.Scope.Unique
import Scriptlet.Proofs.Scope.Order
import Scriptlet.Proofs.Scope.Like
import Scriptlet.Proofs.Scope.IllFormed
import Scriptlet.Proofs.Scope.Rejection
import Scriptlet.Proofs.Store
import Scriptlet.Proofs.Run.Method
import Scriptlet.Proofs.Run.Heap
import Scriptlet.Proofs.Run.Outcome
import Scriptlet.Proofs.Run.Operations
import Scriptlet.Proofs.Run.Preservation
import Scriptlet.Proofs.Run.Moment
import Scriptlet.Proofs.Run.ByName
import Scriptlet.Proofs.Run.Like
import Scriptlet.Proofs.Run.Simulation
import Scriptlet.Proofs.Run.Ownership
import Scriptlet.Proofs.Session.History
import Scriptlet.Proofs.Session.Agreement
import Scriptlet.Proofs.Session.ByName
import Scriptlet.Proofs.Session.Receiver
import Scriptlet.Proofs.Session.Answer
import Scriptlet.Proofs.Session.Like
import Scriptlet.Proofs.Session.Rejected
import Scriptlet.Proofs.Session.Parts
import Scriptlet.Proofs.Session.Joined
import Scriptlet.Proofs.Session.Reports
import Scriptlet.Proofs.Run.Confined
import Scriptlet.Proofs.Run.Confinement
import Scriptlet.Proofs.Run.Growth
import Scriptlet.Proofs.Run.Current
import Scriptlet.Proofs.Session.Founded
import Scriptlet.Proofs.Grammar.Append
import Scriptlet.Proofs.Run.Plan
import Scriptlet.Proofs.Run.Limit
import Scriptlet.Proofs.Parser.Kept
import Scriptlet.Proofs.Session.Limit
import Scriptlet.Proofs.Parser.Cursor
import Scriptlet.Proofs.Run.Site
import Scriptlet.Proofs.Session.Site
import Scriptlet.Proofs.Grammar.Recovery
import Scriptlet.Proofs.Grammar.Ending
import Scriptlet.Proofs.Scope.Reading
import Scriptlet.Proofs.Run.Folding
import Scriptlet.Proofs.Run.Reading
import Scriptlet.Proofs.Run.Answering
import Scriptlet.Proofs.Run.Folded
import Scriptlet.Proofs.Session.Reading
import Scriptlet.Proofs.Lexer.Spaced
import Scriptlet.Proofs.Scope.Lexical
import Scriptlet.Proofs.Scope.Returnless
import Scriptlet.Proofs.Run.Return
import Scriptlet.Proofs.Session.Return
import Scriptlet.Proofs.Number
import Scriptlet.Proofs.Syntax.Sexp
import Scriptlet.Proofs.Syntax.Written
import Scriptlet.Proofs.Syntax.Printed
import Scriptlet.Proofs.Syntax.Readable
import Scriptlet.Proofs.Store.Chain
import Scriptlet.Proofs.Run.Declaration
import Scriptlet.Proofs.Number.Nearest
import Scriptlet.Proofs.Session.Number
import Scriptlet.Proofs.Parser.Arity
import Scriptlet.Proofs.Syntax.Limited
import Scriptlet.Proofs.Session.Arity
import Scriptlet.Proofs.Scope.Balance
import Scriptlet.Proofs.Session.Identity
