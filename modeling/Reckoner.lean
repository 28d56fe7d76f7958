import Reckoner.Operator
import Reckoner.Expr
import Reckoner.Decimal
import Reckoner.Arena
import Reckoner.Arena.Builder
import Reckoner.Tree.PostOrder
import Reckoner.Tree.Shape
import Reckoner.Tree.Interpreter
import Reckoner.Tree.Printer
import Reckoner.Lexeme
import Reckoner.Grammar
import Reckoner.Parser
import Reckoner.ConstantPool
import Reckoner.Code.Error
import Reckoner.Code.Buffer
import Reckoner.Code.Regions
import Reckoner.Code.Bytes
import Reckoner.Machine
import Reckoner.X64.Instruction
import Reckoner.X64.Machine
import Reckoner.X64.Sequence
import Reckoner.A64.Instruction
import Reckoner.A64.Machine
import Reckoner.A64.Sequence
import Reckoner.Target
import Reckoner.Code.Size
import Reckoner.Emitter
import Reckoner.Program
import Reckoner.Evaluation
import Reckoner.Text.WhiteSpace
import Reckoner.Text.Lines
import Reckoner.CommandLine.Options
import Reckoner.CommandLine
import Reckoner.Main
import Reckoner.Proofs.Arena.Growth
import Reckoner.Proofs.Tree.PostOrder
import Reckoner.Proofs.Tree.Interpreter
import Reckoner.Proofs.Tree.Shape
import Reckoner.Proofs.Arena.Builder
import Reckoner.Proofs.ConstantPool
import Reckoner.Proofs.Code.Buffer
import Reckoner.Proofs.Code.Size
import Reckoner.Proofs.Emission
import Reckoner.Proofs.Program.Compilation
import Reckoner.Proofs.Machine.Reachability
import Reckoner.Proofs.Machine.InstructionSet
import Reckoner.Proofs.Machine.Simulation
import Reckoner.Proofs.X64.Execution
import Reckoner.Proofs.A64.Execution
import Reckoner.Proofs.Parser.Derivation
import Reckoner.Proofs.Tree.Printer
import Reckoner.Proofs.Lexeme.Scanning
import Reckoner.Proofs.Parser.NodeCount
import Reckoner.Proofs.Parser.RoundTrip
import Reckoner.Proofs.Target.Instructions
import Reckoner.Proofs.Emitter.IndexTrust
import Reckoner.Proofs.Machine.Processor
import Reckoner.Proofs.Tree.OperandCount
import Reckoner.Proofs.X64.Processor
import Reckoner.Proofs.A64.Processor
import Reckoner.Proofs.Target.Processor
import Reckoner.Proofs.Program.Instructions
import Reckoner.Proofs.Program.Safety
import Reckoner.Proofs.Program.Evaluation
import Reckoner.Proofs.Code.Regions
import Reckoner.Proofs.Program.Trace
import Reckoner.Proofs.Tree.Equality
import Reckoner.Proofs.Program.Decoding
import Reckoner.Proofs.Lexeme.Spans
import Reckoner.Proofs.Parser.Faults
import Reckoner.Proofs.Parser.Completion
import Reckoner.Proofs.Parser.Passages
import Reckoner.Proofs.Parser.ShortestText
import Reckoner.Proofs.Tree.DistinctTexts
import Reckoner.Proofs.Tree.EvaluationLoop
import Reckoner.Proofs.Emitter.Elision
import Reckoner.Proofs.Arena.Paths
import Reckoner.Proofs.Arena.Ownership
import Reckoner.Proofs.Program.Layout
import Reckoner.Proofs.Tree.Measure
import Reckoner.Proofs.Tree.Structure
import Reckoner.Proofs.Code.SizeWords
import Reckoner.Proofs.Code.AppendLog
import Reckoner.Proofs.Emitter.Residue
import Reckoner.Proofs.ConstantPool.Positions
import Reckoner.Proofs.Parser.Blanks
import Reckoner.Proofs.Lexeme.Partition
import Reckoner.Proofs.Parser.ForestInduction
import Reckoner.Proofs.Parser.NodeOrder
import Reckoner.Proofs.CommandLine.Blocks
import Reckoner.Proofs.Arena.Identity
import Reckoner.Proofs.Code.PoolWrites
import Reckoner.Proofs.Parser.Stacks
import Reckoner.Proofs.Target.OperatorEffect
import Reckoner.Proofs.Tree.Iteration
