import Asl.Attempt
import Asl.Attribute
import Asl.Binary64.Basic
import Asl.Binary64.Shortest
import Asl.Binary64.Text
import Asl.Code.Basic
import Asl.Code.Listing
import Asl.Code.Lowering
import Asl.CommandLine
import Asl.CommandLine.Arguments
import Asl.Compile
import Asl.Diagnostic
import Asl.Main
import Asl.Proofs.Accepted
import Asl.Proofs.Binary64.Nearest
import Asl.Proofs.CallStack
import Asl.Proofs.Cascading
import Asl.Proofs.ClosedCode
import Asl.Proofs.Code.Flows
import Asl.Proofs.Code.Paths
import Asl.Proofs.Code.Reading
import Asl.Proofs.Code.Structured
import Asl.Proofs.Code.Texts
import Asl.Proofs.Code.Typing
import Asl.Proofs.CommandLine
import Asl.Proofs.CommandLine.Arguments
import Asl.Proofs.ControlFlow
import Asl.Proofs.Counting
import Asl.Proofs.Decorated
import Asl.Proofs.EntryPoint
import Asl.Proofs.FirstPass
import Asl.Proofs.Listing
import Asl.Proofs.Lowering.Agreement
import Asl.Proofs.Lowering.Constants
import Asl.Proofs.Lowering.Escapes
import Asl.Proofs.Lowering.Failure
import Asl.Proofs.Lowering.Labels
import Asl.Proofs.Lowering.Loops
import Asl.Proofs.Lowering.Notes
import Asl.Proofs.Lowering.Renamed
import Asl.Proofs.Lowering.Starts
import Asl.Proofs.Lowering.Structured
import Asl.Proofs.Lowering.Text
import Asl.Proofs.Lowering.Typed
import Asl.Proofs.Lowering.TypedBody
import Asl.Proofs.Lowering.Wrapped
import Asl.Proofs.Meaning.Bodies
import Asl.Proofs.Meaning.Calls
import Asl.Proofs.Meaning.Control
import Asl.Proofs.Meaning.Expressions
import Asl.Proofs.Meaning.Following
import Asl.Proofs.Meaning.Iterations
import Asl.Proofs.Meaning.Machine
import Asl.Proofs.Meaning.Maxima
import Asl.Proofs.Meaning.Programs
import Asl.Proofs.Meaning.Progressions
import Asl.Proofs.Meaning.Ranges
import Asl.Proofs.Meaning.Statements
import Asl.Proofs.Meaning.Storing
import Asl.Proofs.Meaning.Tree
import Asl.Proofs.Meaning.Within
import Asl.Proofs.Meaning.World
import Asl.Proofs.Positions
import Asl.Proofs.Printing
import Asl.Proofs.Renaming
import Asl.Proofs.Reporting
import Asl.Proofs.Reuse
import Asl.Proofs.Sample.Expressions
import Asl.Proofs.Sample.Programs
import Asl.Proofs.Sample.Statements
import Asl.Proofs.Sample.Values
import Asl.Proofs.Scope.Nested
import Asl.Proofs.ScopeDiscipline
import Asl.Proofs.SeparateCompilation
import Asl.Proofs.Session.Analysis
import Asl.Proofs.Session.Declaring
import Asl.Proofs.Session.Failing
import Asl.Proofs.Session.Judging
import Asl.Proofs.Session.Listing
import Asl.Proofs.Session.Ranged
import Asl.Proofs.Session.Repeating
import Asl.Proofs.Session.View
import Asl.Proofs.Source
import Asl.Proofs.SyntaxErrors
import Asl.Proofs.Termination
import Asl.Proofs.Token.Division
import Asl.Proofs.Token.Languages
import Asl.Proofs.Token.Lexed
import Asl.Proofs.Token.Lines
import Asl.Proofs.Token.Munch
import Asl.Proofs.Token.Numerals
import Asl.Proofs.Token.Reread
import Asl.Proofs.Token.Words
import Asl.Proofs.Token.Written
import Asl.Proofs.Tree.Blamed
import Asl.Proofs.Tree.Calls
import Asl.Proofs.Tree.Constructs
import Asl.Proofs.Tree.Declared
import Asl.Proofs.Tree.Described
import Asl.Proofs.Tree.Holes
import Asl.Proofs.Tree.Kinds
import Asl.Proofs.Tree.Layout
import Asl.Proofs.Tree.Marks
import Asl.Proofs.Tree.Nodes
import Asl.Proofs.Tree.Numbered
import Asl.Proofs.Tree.Outline
import Asl.Proofs.Tree.Parsed
import Asl.Proofs.Tree.Phrases
import Asl.Proofs.Tree.Printed
import Asl.Proofs.Tree.Readback
import Asl.Proofs.Tree.Reading
import Asl.Proofs.Tree.Renamed
import Asl.Proofs.Tree.Settled
import Asl.Proofs.Tree.Taken
import Asl.Proofs.Tree.Unbounded
import Asl.Proofs.Tree.Unrolled
import Asl.Proofs.Tree.Wrapped
import Asl.Proofs.Tree.Writable
import Asl.Proofs.Ty.Interning
import Asl.Proofs.Ty.Table
import Asl.Proofs.Typing.Callees
import Asl.Proofs.Typing.Checker
import Asl.Proofs.Typing.Filled
import Asl.Proofs.Typing.Located
import Asl.Proofs.Typing.Program
import Asl.Proofs.Typing.Renamed
import Asl.Proofs.Typing.Rules
import Asl.Proofs.Typing.Silence
import Asl.Proofs.Typing.Sparing
import Asl.Proofs.Typing.Subjects
import Asl.Proofs.Typing.Swapped
import Asl.Proofs.Typing.Undeclared
import Asl.Proofs.Typing.Wrapped
import Asl.Sample.Draw
import Asl.Sample.Program
import Asl.Scope.Basic
import Asl.Scope.Table
import Asl.Session
import Asl.Text.Glyph
import Asl.Text.Position
import Asl.Text.Printable
import Asl.Text.Quoted
import Asl.Token.Basic
import Asl.Token.Lexer
import Asl.Token.Rule
import Asl.Tree.Basic
import Asl.Tree.Cursor
import Asl.Tree.Grammar
import Asl.Tree.Printer
import Asl.Ty.Basic
import Asl.Ty.Table
import Asl.Typing
