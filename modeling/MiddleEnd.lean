import MiddleEnd.Number.Spelling
import MiddleEnd.Machine.Arith
import MiddleEnd.Typing.Promotion
import MiddleEnd.Diagnostic.Queue
import MiddleEnd.Source.Names
import MiddleEnd.Tree.Builder
import MiddleEnd.Compiler
import MiddleEnd.Proofs.Lowering.Steps
import MiddleEnd.Proofs.Code.Canonical
import MiddleEnd.Proofs.Code.WellFormed
import MiddleEnd.Proofs.Compiler
import MiddleEnd.Proofs.Evaluation.Expressions
import MiddleEnd.Proofs.Evaluation.Programs
import MiddleEnd.Proofs.Lowering.Returns
import MiddleEnd.Proofs.Machine.Kinds
import MiddleEnd.Proofs.Machine.Results
import MiddleEnd.Proofs.Code.Values
import MiddleEnd.Proofs.Lowering.Last
import MiddleEnd.Proofs.Lowering.Places
import MiddleEnd.Proofs.Machine.LastValue
import MiddleEnd.Proofs.Resolution.Lexical
import MiddleEnd.Proofs.Resolution.Nested
import MiddleEnd.Proofs.Machine.Literals
import MiddleEnd.Proofs.Typing.Order
import MiddleEnd.Proofs.Totality
import MiddleEnd.Proofs.Lowering.Operands
import MiddleEnd.Proofs.Machine.Operands
import MiddleEnd.Proofs.Lowering.Fractions
import MiddleEnd.Proofs.Machine.Signs
import MiddleEnd.Proofs.Machine.Writers
import MiddleEnd.Proofs.Typing.Nested
import MiddleEnd.Proofs.Typing.Cascades
import MiddleEnd.Proofs.Lowering.Isolation
import MiddleEnd.Proofs.Machine.Symbols
import MiddleEnd.Proofs.Grouping
import MiddleEnd.Proofs.Machine.Closed
import MiddleEnd.Proofs.Machine.Depth
import MiddleEnd.Proofs.Machine.Reuse
import MiddleEnd.Proofs.Settings
import MiddleEnd.Proofs.Machine.Parallel
import MiddleEnd.Proofs.Code.Arithmetic
import MiddleEnd.Proofs.Code.Conversion
import MiddleEnd.Proofs.Lowering.Registers
import MiddleEnd.Proofs.Callees
import MiddleEnd.Proofs.Diagnostic.ErrorLimit
import MiddleEnd.Proofs.Diagnostic.Counted
import MiddleEnd.Proofs.Typing.Literals
import MiddleEnd.Proofs.Source.Monotone
import MiddleEnd.Proofs.Tree.Listing
import MiddleEnd.Proofs.Machine.Natives
import MiddleEnd.Proofs.Tree.Calls
import MiddleEnd.Proofs.Source.Names
