import Lox.CommandLine.Basic
import Lox.CommandLine.FileTree
import Lox.Diagnostic.Basic
import Lox.Diagnostic.Report
import Lox.Failure
import Lox.Machine.Basic
import Lox.Machine.Eval
import Lox.Machine.Value
import Lox.Main
import Lox.Number.Basic
import Lox.Number.Decimal
import Lox.Number.Shortest
import Lox.Number.Text
import Lox.Proofs.Grammar.Basic
import Lox.Proofs.Grammar.Completeness.Expression
import Lox.Proofs.Grammar.Completeness.Program
import Lox.Proofs.Grammar.Course
import Lox.Proofs.Grammar.Echo
import Lox.Proofs.Grammar.Exact
import Lox.Proofs.Grammar.Indexed
import Lox.Proofs.Grammar.Isolation
import Lox.Proofs.Grammar.Lines
import Lox.Proofs.Grammar.Loop
import Lox.Proofs.Grammar.Numbering
import Lox.Proofs.Grammar.Outcome
import Lox.Proofs.Grammar.Printed
import Lox.Proofs.Grammar.Proper
import Lox.Proofs.Grammar.Reading
import Lox.Proofs.Grammar.Recovery
import Lox.Proofs.Grammar.Soundness.Expression
import Lox.Proofs.Grammar.Soundness.Program
import Lox.Proofs.Grammar.Totality
import Lox.Proofs.Grammar.Tracking
import Lox.Proofs.Grammar.Variant
import Lox.Proofs.Grammar.Whole
import Lox.Proofs.Lexical.Alike
import Lox.Proofs.Lexical.Basic
import Lox.Proofs.Lexical.Concatenation
import Lox.Proofs.Lexical.Correspondence
import Lox.Proofs.Lexical.Declarations
import Lox.Proofs.Lexical.Eval
import Lox.Proofs.Lexical.Lookup
import Lox.Proofs.Lexical.Loop
import Lox.Proofs.Lexical.Relabel
import Lox.Proofs.Lexical.Runaway
import Lox.Proofs.Lexical.Session
import Lox.Proofs.Lexical.Simulation
import Lox.Proofs.Lexical.Steps
import Lox.Proofs.Lexical.Tables
import Lox.Proofs.Lexical.Variant
import Lox.Proofs.Machine.Activity
import Lox.Proofs.Machine.Locality
import Lox.Proofs.Machine.Shape
import Lox.Proofs.Machine.Steps
import Lox.Proofs.Machine.Timeline
import Lox.Proofs.Number.Numeral
import Lox.Proofs.Number.Printing
import Lox.Proofs.Number.Rounding
import Lox.Proofs.Number.Shortest
import Lox.Proofs.Receiver.Basic
import Lox.Proofs.Receiver.Calls
import Lox.Proofs.Receiver.Run
import Lox.Proofs.Receiver.Selves
import Lox.Proofs.Receiver.Tables
import Lox.Proofs.Scope.Braces
import Lox.Proofs.Scope.Exactness
import Lox.Proofs.Scope.Growth
import Lox.Proofs.Scope.Operations
import Lox.Proofs.Scope.Renaming
import Lox.Proofs.Scope.Resolution
import Lox.Proofs.Scope.Rules
import Lox.Proofs.Scope.Scoped
import Lox.Proofs.Scope.Sites
import Lox.Proofs.Sequence
import Lox.Proofs.Session.Acceptance
import Lox.Proofs.Session.Agreement
import Lox.Proofs.Session.Braces
import Lox.Proofs.Session.Calls
import Lox.Proofs.Session.Chronicle
import Lox.Proofs.Session.Front
import Lox.Proofs.Session.Incidents
import Lox.Proofs.Session.Lookup
import Lox.Proofs.Session.Loops
import Lox.Proofs.Session.Matching
import Lox.Proofs.Session.Pieces
import Lox.Proofs.Session.Printing
import Lox.Proofs.Session.Receiver
import Lox.Proofs.Session.Refinement
import Lox.Proofs.Session.Rejection
import Lox.Proofs.Session.Renaming
import Lox.Proofs.Session.Resolutions
import Lox.Proofs.Session.Restoration
import Lox.Proofs.Session.Safety
import Lox.Proofs.Session.Tree
import Lox.Proofs.Session.Writes
import Lox.Proofs.Token.Composition
import Lox.Proofs.Token.Munch
import Lox.Proofs.Token.Rescanning
import Lox.Proofs.Token.Respelling
import Lox.Proofs.Token.Seam
import Lox.Proofs.Tree.Context
import Lox.Proofs.Tree.Form
import Lox.Proofs.Tree.Readable
import Lox.Proofs.Tree.Relabel
import Lox.Proofs.Tree.Renaming
import Lox.Proofs.Tree.Variant
import Lox.Scope.Bindings
import Lox.Scope.Distance
import Lox.Scope.Heap
import Lox.Session
import Lox.Text.Hidden
import Lox.Text.Quoted
import Lox.Token.Basic
import Lox.Token.Lexer
import Lox.Tree.Basic
import Lox.Tree.Parser.Cursor
import Lox.Tree.Parser.Expression
import Lox.Tree.Parser.Program
import Lox.Tree.Printer
import Lox.Workbench
