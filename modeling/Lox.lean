import Lox.Main
import Lox.Proofs.Expr.Phrase
import Lox.Proofs.Expr.Reading
import Lox.Proofs.Expr.WrittenForm
import Lox.Proofs.Expr.Acceptance
import Lox.Proofs.Stmt.Acceptance
import Lox.Proofs.Ids
import Lox.Proofs.Machine.Labels
import Lox.Proofs.Machine.Output
import Lox.Proofs.Machine.Stack
import Lox.Proofs.Scope.Labels
import Lox.Proofs.Session.Joining
import Lox.Proofs.Machine.Lookup
import Lox.Proofs.Scope.Fitting
import Lox.Proofs.Session.Lookup
import Lox.Proofs.Scope.Rules
import Lox.Proofs.Session.Rejected
import Lox.Proofs.Session.Renaming
import Lox.Proofs.Machine.Balance
import Lox.Proofs.Machine.Calls
import Lox.Proofs.Session.Depth
import Lox.Proofs.Machine.Ending
import Lox.Proofs.Session.Ending
import Lox.Proofs.Token.Iteration
import Lox.Proofs.Session.Printing
import Lox.Proofs.Machine.Sinks
import Lox.Proofs.Session.Truncation
import Lox.Proofs.Scope.Supers
import Lox.Proofs.Store.Receivers
import Lox.Proofs.Machine.Receivers
import Lox.Proofs.Session.Receivers
import Lox.Proofs.Indexed.Slice
import Lox.Proofs.Indexed.Expr
import Lox.Proofs.Indexed.Stmt
import Lox.Proofs.Machine.Checked
import Lox.Proofs.Session.Panics
import Lox.Proofs.Scope.Notes
import Lox.Proofs.Store.Growth
import Lox.Proofs.Scope.Homes
import Lox.Proofs.Machine.Housing
import Lox.Proofs.Session.Course
import Lox.Proofs.Session.Fields
import Lox.Proofs.Machine.Returning
import Lox.Proofs.Session.Constancy
import Lox.Proofs.Session.StaticSuper
import Lox.Proofs.Machine.Continuing
import Lox.Proofs.Machine.Declaring
import Lox.Proofs.Indexed.Progress
import Lox.Proofs.Stmt.Appending
import Lox.Proofs.Stmt.ForLoops
import Lox.Proofs.Session.ForLoops
import Lox.Proofs.Token.Lines
import Lox.Proofs.Token.Spacing
import Lox.Proofs.Session.Classes
import Lox.Proofs.Store.Distances
import Lox.Proofs.Stmt.Functions
import Lox.Proofs.Machine.Supply
import Lox.Proofs.Machine.Entering
import Lox.Proofs.Session.Arguments
import Lox.Proofs.Machine.Sequence
import Lox.Proofs.Session.Sequence
import Lox.Proofs.Decimal.Binary64
import Lox.Proofs.Decimal.Shortest
import Lox.Proofs.Decimal.Layout
import Lox.Proofs.Number.TreeText
import Lox.Proofs.Number.OfDigits
import Lox.Proofs.Expr.Words
import Lox.Proofs.Expr.Forms
import Lox.Proofs.Expr.Printing
import Lox.Proofs.Decimal.Fewest
import Lox.Proofs.Decimal.Whole
import Lox.Proofs.Number.TokenText
import Lox.Proofs.Number.Display
