import FunImp.Main
import FunImp.Proofs.Grammar.WellFormed
import FunImp.Proofs.Grammar.Reading
import FunImp.Proofs.Grammar.Soundness
import FunImp.Proofs.Grammar.Completeness
import FunImp.Proofs.Grammar.Parse
import FunImp.Proofs.Grammar.Failing
import FunImp.Proofs.Grammar.Foresight
import FunImp.Proofs.Grammar.Stuck
import FunImp.Proofs.Grammar.Completing
import FunImp.Proofs.Grammar.Mending
import FunImp.Proofs.Grammar.Refusal
import FunImp.Proofs.Grammar.Errors
import FunImp.Proofs.Lowering.Total
import FunImp.Proofs.Lowering.Depth
import FunImp.Proofs.Lexing.Reads
import FunImp.Proofs.Lexing.Normal
import FunImp.Proofs.Lowering.Lossless
import FunImp.Proofs.Lowering.Chains
import FunImp.Proofs.Layout.Irrelevant
import FunImp.Proofs.Writing.Readback
import FunImp.Proofs.Text.Positions
import FunImp.Proofs.Lexing.Placed
import FunImp.Proofs.Program.Nodes
import FunImp.Proofs.Lowering.Leaves
import FunImp.Proofs.Program.Spans
import FunImp.Proofs.Typing.Checker
import FunImp.Proofs.Symbol.Table
import FunImp.Proofs.Typing.Declarations
import FunImp.Proofs.Typing.Validate
import FunImp.Proofs.Typing.Purity
import FunImp.Proofs.Typing.Session
import FunImp.Proofs.Typing.Frames
import FunImp.Proofs.Symbol.Runs
import FunImp.Proofs.Typing.Order
import FunImp.Proofs.Typing.Blames
import FunImp.Proofs.Text.Lines
import FunImp.Proofs.Diagnostic.Fits
import FunImp.Proofs.Lexing.Marked
import FunImp.Proofs.Compile.Sources
import FunImp.Proofs.Compile.Located
import FunImp.Proofs.Lowering.Numbers
import FunImp.Proofs.Typing.Discovery
import FunImp.Proofs.Layout.Concatenation
import FunImp.Proofs.Lowering.Precedence
import FunImp.Proofs.Typing.KeepGoing
import FunImp.Proofs.Lexing.Cover
import FunImp.Proofs.Compile.Pointed
import FunImp.Proofs.Grammar.Reuse
import FunImp.Proofs.Typing.Renaming
import FunImp.Proofs.Typing.Scoping
import FunImp.Proofs.Diagnostic.Painted
import FunImp.Proofs.Outline.Programs
import FunImp.Proofs.Text.Spans
import FunImp.Proofs.Text.Scanning
import FunImp.Proofs.CommandLine.Paragraphs
import FunImp.Proofs.Grammar.Progress
import FunImp.Proofs.Grammar.Nesting
import FunImp.Proofs.Grammar.OpenRules
