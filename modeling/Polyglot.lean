import Polyglot.Assembly.Assemble
import Polyglot.Assembly.Command
import Polyglot.Assembly.Language
import Polyglot.Assembly.Listing
import Polyglot.B.Compile
import Polyglot.B.Language
import Polyglot.B.Syntax
import Polyglot.CommandLine.Arguments
import Polyglot.CommandLine.Failure
import Polyglot.CommandLine.Options
import Polyglot.CommandLine.Perform
import Polyglot.Expr.Evaluate
import Polyglot.Expr.Language
import Polyglot.Grammar.Basic
import Polyglot.Grammar.Build
import Polyglot.Grammar.Parse
import Polyglot.Grammar.Xbnf
import Polyglot.Language.Basic
import Polyglot.Language.Catalogue
import Polyglot.Language.Error
import Polyglot.Language.Xbnf
import Polyglot.Lexis.Token
import Polyglot.Lexis.Tokenize
import Polyglot.Lexis.Vocabulary
import Polyglot.Machine.Config
import Polyglot.Machine.Fault
import Polyglot.Machine.Instruction
import Polyglot.Machine.Memory
import Polyglot.Machine.Program
import Polyglot.Machine.Register
import Polyglot.Machine.State
import Polyglot.Machine.Syscall
import Polyglot.Main
import Polyglot.Pattern.Language
import Polyglot.Pattern.Lower
import Polyglot.Regex.Basic
import Polyglot.Regex.ByteRows
import Polyglot.Regex.CharSet
import Polyglot.Regex.Class
import Polyglot.Regex.Program
import Polyglot.Regex.Reader
import Polyglot.Regex.SyntaxError
import Polyglot.Regex.Weight
import Polyglot.Source.Diagnostic
import Polyglot.Source.Excerpt
import Polyglot.Source.Position
import Polyglot.Synthesis.Artifact
import Polyglot.Synthesis.Graph
import Polyglot.Synthesis.Languages
import Polyglot.Synthesis.Pipeline
import Polyglot.Text.Blank
import Polyglot.Text.Escape
import Polyglot.Text.Json
import Polyglot.Text.Lines
import Polyglot.Text.Numeral
import Polyglot.Text.Padding
import Polyglot.Text.Style
import Polyglot.Text.Word
import Polyglot.Tree.Basic
import Polyglot.Tree.Json
import Polyglot.Tree.Layout
import Polyglot.Tree.Shake
import Polyglot.Tree.Visitor
import Polyglot.Proofs.Assembly.Layout
import Polyglot.Proofs.Assembly.Linking
import Polyglot.Proofs.Assembly.Printing
import Polyglot.Proofs.Assembly.Running
import Polyglot.Proofs.B.Correctness
import Polyglot.Proofs.B.Validity
import Polyglot.Proofs.Grammar.Recovery
import Polyglot.Proofs.Language.Formatting
import Polyglot.Proofs.Assembly.Written
import Polyglot.Proofs.Lexis.Accounting
import Polyglot.Proofs.Machine.Words
import Polyglot.Proofs.Assembly.Places
import Polyglot.Proofs.Assembly.Reading
import Polyglot.Proofs.Assembly.Recovery
import Polyglot.Proofs.Assembly.WellFormed
import Polyglot.Proofs.B.Code
import Polyglot.Proofs.B.Contents
import Polyglot.Proofs.B.Output
import Polyglot.Proofs.Expr.Counterparts
import Polyglot.Proofs.Expr.Reading
import Polyglot.Proofs.Expr.Sources
import Polyglot.Proofs.Expr.Agreement
import Polyglot.Proofs.Assembly.Effects
import Polyglot.Proofs.Assembly.Executing
import Polyglot.Proofs.B.Assignment
import Polyglot.Proofs.Language.SelfHosting
import Polyglot.Proofs.Pattern.Correctness
import Polyglot.Proofs.Machine.Allocation
import Polyglot.Proofs.Lexis.Declaring
import Polyglot.Proofs.Assembly.Intact
import Polyglot.Proofs.B.Intact
import Polyglot.Proofs.B.Sources
import Polyglot.Proofs.Expr.Intact
import Polyglot.Proofs.Language.BackEnds
import Polyglot.Proofs.Machine.Faults
import Polyglot.Proofs.Machine.Files
import Polyglot.Proofs.Machine.Frame
import Polyglot.Proofs.Parsing.Blame
import Polyglot.Proofs.Parsing.Ending
import Polyglot.Proofs.Synthesis.Paths
import Polyglot.Proofs.Grammar.Direct
import Polyglot.Proofs.B.Outlook
import Polyglot.Proofs.Language.Sentences
import Polyglot.Proofs.Machine.Limits
import Polyglot.Proofs.Machine.Loading
import Polyglot.Proofs.Assembly.Alike
import Polyglot.Proofs.Language.Anchoring
import Polyglot.Proofs.Grammar.WellFormed
import Polyglot.Proofs.B.Framing
import Polyglot.Proofs.B.Addresses
import Polyglot.Proofs.Language.Showing
import Polyglot.Proofs.Grammar.Unused
import Polyglot.Proofs.B.Constants
import Polyglot.Proofs.B.Folding
import Polyglot.Proofs.B.Numbers
import Polyglot.Proofs.B.Checks
import Polyglot.Proofs.B.Acceptance
