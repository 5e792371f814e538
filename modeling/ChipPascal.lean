import ChipPascal.Assembly.Listing
import ChipPascal.Assembly.Register
import ChipPascal.Check.Findings
import ChipPascal.Check.Kinds
import ChipPascal.Check.Names
import ChipPascal.Check.Usage
import ChipPascal.CommandLine.Arguments
import ChipPascal.CommandLine.Disk
import ChipPascal.CommandLine.Files
import ChipPascal.CommandLine.Run
import ChipPascal.Compiler
import ChipPascal.Diagnostic
import ChipPascal.Diagnostic.Feedback
import ChipPascal.Diagnostic.Report
import ChipPascal.Frames
import ChipPascal.Lowering.Expr
import ChipPascal.Lowering.Monad
import ChipPascal.Lowering.Program
import ChipPascal.Lowering.Stmt
import ChipPascal.Machine.Image
import ChipPascal.Machine.Inspect
import ChipPascal.Machine.Operation
import ChipPascal.Machine.Step
import ChipPascal.Main
import ChipPascal.Program
import ChipPascal.Program.Cursor
import ChipPascal.Program.ExprParser
import ChipPascal.Program.Parser
import ChipPascal.Program.StmtParser
import ChipPascal.Proofs.BaseDisplacement
import ChipPascal.Proofs.CallingConvention
import ChipPascal.Proofs.Code
import ChipPascal.Proofs.CompiledProgram
import ChipPascal.Proofs.ConstProtection
import ChipPascal.Proofs.ControlPaths
import ChipPascal.Proofs.DataLayout
import ChipPascal.Proofs.DeclarationOrder
import ChipPascal.Proofs.Declarations
import ChipPascal.Proofs.Decoding
import ChipPascal.Proofs.DisplacementLog
import ChipPascal.Proofs.Excerpts
import ChipPascal.Proofs.Execution
import ChipPascal.Proofs.ExprLowering
import ChipPascal.Proofs.ExprSimulation
import ChipPascal.Proofs.FlowCheck
import ChipPascal.Proofs.FrameEntry
import ChipPascal.Proofs.FrameHistory
import ChipPascal.Proofs.FrameLayout
import ChipPascal.Proofs.FrameMemory
import ChipPascal.Proofs.Fuel
import ChipPascal.Proofs.Grammar
import ChipPascal.Proofs.Identifiers
import ChipPascal.Proofs.KindCheck
import ChipPascal.Proofs.KindReport
import ChipPascal.Proofs.Layout
import ChipPascal.Proofs.ListingLabels
import ChipPascal.Proofs.ListingText
import ChipPascal.Proofs.Loading
import ChipPascal.Proofs.LoweringFaults
import ChipPascal.Proofs.LoweringReport
import ChipPascal.Proofs.Meaning
import ChipPascal.Proofs.NameCheck
import ChipPascal.Proofs.NameReport
import ChipPascal.Proofs.Nesting
import ChipPascal.Proofs.NoFault
import ChipPascal.Proofs.ParserCompleteness
import ChipPascal.Proofs.ParserProgress
import ChipPascal.Proofs.ParserSoundness
import ChipPascal.Proofs.Positions
import ChipPascal.Proofs.Preservation
import ChipPascal.Proofs.Printing
import ChipPascal.Proofs.Recovery
import ChipPascal.Proofs.Referents
import ChipPascal.Proofs.ReportSpans
import ChipPascal.Proofs.Restoration
import ChipPascal.Proofs.RoundTrip
import ChipPascal.Proofs.Safety
import ChipPascal.Proofs.ScopeChain
import ChipPascal.Proofs.ScopeHistory
import ChipPascal.Proofs.SourceTiling
import ChipPascal.Proofs.Stages
import ChipPascal.Proofs.StmtSimulation
import ChipPascal.Proofs.StorageLayout
import ChipPascal.Proofs.StraightLine
import ChipPascal.Proofs.SymbolAgreement
import ChipPascal.Proofs.Termination
import ChipPascal.Proofs.TokenLayout
import ChipPascal.Proofs.UnsetReads
import ChipPascal.Proofs.UnusedNames
import ChipPascal.Proofs.UsageCheck
import ChipPascal.Proofs.UsageRecord
import ChipPascal.Proofs.WrittenCode
import ChipPascal.Scopes
import ChipPascal.Source.LineIndex
import ChipPascal.Source.Span
import ChipPascal.Symbol
import ChipPascal.Symbols
import ChipPascal.Text.Blank
import ChipPascal.Text.Hex
import ChipPascal.Text.Json
import ChipPascal.Text.Numeral
import ChipPascal.Text.Quoted
import ChipPascal.Text.Split
import ChipPascal.Text.Unprintable
import ChipPascal.Token
import ChipPascal.Token.Lexer
