import SyntaxChart.Binary64
import SyntaxChart.Binary64.Nearest
import SyntaxChart.Binary64.Shortest
import SyntaxChart.Category
import SyntaxChart.Chart
import SyntaxChart.Chart.Mermaid
import SyntaxChart.Command
import SyntaxChart.Command.Disk
import SyntaxChart.Command.Outcome
import SyntaxChart.Datum
import SyntaxChart.Decimal
import SyntaxChart.Decimal.Numeral
import SyntaxChart.Expr
import SyntaxChart.Expr.Fault
import SyntaxChart.Expr.Parser
import SyntaxChart.Main
import SyntaxChart.Outline
import SyntaxChart.Outline.Syntax
import SyntaxChart.Outline.Wiring
import SyntaxChart.Registry
import SyntaxChart.SExpr
import SyntaxChart.SExpr.Layout
import SyntaxChart.SExpr.Reader
import SyntaxChart.Source
import SyntaxChart.Text.Blank
import SyntaxChart.Word
import SyntaxChart.Proofs.Minting
import SyntaxChart.Proofs.Growth
import SyntaxChart.Proofs.Tree
import SyntaxChart.Proofs.Unfolding
import SyntaxChart.Proofs.Drawing
import SyntaxChart.Proofs.Declarations
import SyntaxChart.Proofs.Grammar
import SyntaxChart.Proofs.Legibility
import SyntaxChart.Proofs.Reading
import SyntaxChart.Proofs.Decoding
import SyntaxChart.Proofs.Alike
import SyntaxChart.Proofs.Rooted
import SyntaxChart.Proofs.Derivation
import SyntaxChart.Proofs.Parsing
import SyntaxChart.Proofs.Writing
import SyntaxChart.Proofs.Unparsing
import SyntaxChart.Proofs.Recording
import SyntaxChart.Proofs.Shifting
import SyntaxChart.Proofs.Classifying
import SyntaxChart.Proofs.CommandLine
import SyntaxChart.Proofs.Verbosity
import SyntaxChart.Proofs.Ordering
import SyntaxChart.Proofs.Mentioning
import SyntaxChart.Proofs.Naming
import SyntaxChart.Proofs.QuoteMark
import SyntaxChart.Proofs.Excerpt
import SyntaxChart.Proofs.Stopping
import SyntaxChart.Proofs.Framing
import SyntaxChart.Proofs.Masking
import SyntaxChart.Proofs.Captions
import SyntaxChart.Proofs.LetKinds
import SyntaxChart.Proofs.Ending
import SyntaxChart.Proofs.Faults
import SyntaxChart.Proofs.Flattening
import SyntaxChart.Proofs.Quoting
import SyntaxChart.Proofs.Refusal
import SyntaxChart.Proofs.Progress
import SyntaxChart.Proofs.Bounded
import SyntaxChart.Proofs.Magnitude
import SyntaxChart.Proofs.Rounding
import SyntaxChart.Proofs.Numerals
import SyntaxChart.Proofs.Printing
