import BareBones.C.Layout
import BareBones.C.Line
import BareBones.C.Lower
import BareBones.C.Statement
import BareBones.CommandLine.Arguments
import BareBones.CommandLine.FileTree
import BareBones.CommandLine.Run
import BareBones.Compile
import BareBones.Main
import BareBones.Position
import BareBones.Proofs.Acceptance
import BareBones.Proofs.Arithmetic
import BareBones.Proofs.C.Constants
import BareBones.Proofs.C.FormatString
import BareBones.Proofs.C.Formats
import BareBones.Proofs.C.Fragments
import BareBones.Proofs.C.Layouts
import BareBones.Proofs.C.Lexeme
import BareBones.Proofs.C.Lines
import BareBones.Proofs.C.Occurrences
import BareBones.Proofs.C.Pieces
import BareBones.Proofs.C.Precedence
import BareBones.Proofs.C.Printf
import BareBones.Proofs.C.Reference
import BareBones.Proofs.C.Rows
import BareBones.Proofs.C.Spacing
import BareBones.Proofs.C.StringLiteral
import BareBones.Proofs.C.Values
import BareBones.Proofs.C.Whitespace
import BareBones.Proofs.Capture
import BareBones.Proofs.CommandLine.Effects
import BareBones.Proofs.CommandLine.Words
import BareBones.Proofs.Continuation
import BareBones.Proofs.Coordinates
import BareBones.Proofs.Counters
import BareBones.Proofs.Demand
import BareBones.Proofs.Erasure
import BareBones.Proofs.Excerpts
import BareBones.Proofs.Execution
import BareBones.Proofs.Extents
import BareBones.Proofs.FirstFault
import BareBones.Proofs.Grammar
import BareBones.Proofs.Growth
import BareBones.Proofs.Hoisting
import BareBones.Proofs.Insertion
import BareBones.Proofs.LineEndings
import BareBones.Proofs.Literals
import BareBones.Proofs.Lowering
import BareBones.Proofs.Munch
import BareBones.Proofs.NameFaults
import BareBones.Proofs.NameTable
import BareBones.Proofs.NameUse
import BareBones.Proofs.Naming
import BareBones.Proofs.Nesting
import BareBones.Proofs.Nodes
import BareBones.Proofs.Placement
import BareBones.Proofs.Printing
import BareBones.Proofs.Reading
import BareBones.Proofs.Rereading
import BareBones.Proofs.Resolution
import BareBones.Proofs.Respelling
import BareBones.Proofs.Scan
import BareBones.Proofs.Segments
import BareBones.Proofs.Spelling
import BareBones.Proofs.TextLines
import BareBones.Proofs.Underlining
import BareBones.Proofs.Watching
import BareBones.Report
import BareBones.Scope
import BareBones.Source
import BareBones.Syntax
import BareBones.Syntax.Error
import BareBones.Syntax.Fault
import BareBones.Syntax.Parse
import BareBones.Syntax.Progress
import BareBones.Syntax.Step
import BareBones.Syntax.Supply
import BareBones.Syntax.Trace
import BareBones.Token
import BareBones.Token.Scan
