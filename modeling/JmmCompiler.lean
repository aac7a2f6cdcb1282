import JmmCompiler.Source.Reader
import JmmCompiler.Tree.Serialize
import JmmCompiler.Checks
import JmmCompiler.Constants.Propagate
import JmmCompiler.Varargs
import JmmCompiler.Code.Program
import JmmCompiler.Lowering.Statement
import JmmCompiler.Registers.Allocation
import JmmCompiler.Jasmin.Assembly
import JmmCompiler.Main
import JmmCompiler.Proofs.Machine
import JmmCompiler.Proofs.Results
import JmmCompiler.Proofs.Liveness
import JmmCompiler.Proofs.Slots
import JmmCompiler.Proofs.Coloring
import JmmCompiler.Proofs.Allocation
import JmmCompiler.Proofs.AllocatedRun
import JmmCompiler.Proofs.Values
import JmmCompiler.Proofs.Meaning
import JmmCompiler.Proofs.StackMachine
import JmmCompiler.Proofs.Encoding
import JmmCompiler.Proofs.Emission
import JmmCompiler.Proofs.EmittedValue
import JmmCompiler.Proofs.EmittedInstruction
import JmmCompiler.Proofs.Emittable
import JmmCompiler.Proofs.EmittedRun
import JmmCompiler.Proofs.CodeSteps
import JmmCompiler.Proofs.Freshness
import JmmCompiler.Proofs.Subtrees
import JmmCompiler.Proofs.Execution
import JmmCompiler.Proofs.ExpressionShape
import JmmCompiler.Proofs.Gathering
import JmmCompiler.Proofs.KnownTypes
import JmmCompiler.Proofs.Lowerable
import JmmCompiler.Proofs.PrintedExpression
import JmmCompiler.Proofs.PrintedProgram
import JmmCompiler.Proofs.Resolution
import JmmCompiler.Proofs.SafeExpression
import JmmCompiler.Proofs.SafeStatement
import JmmCompiler.Proofs.LabelNumbers
import JmmCompiler.Proofs.Labels
import JmmCompiler.Proofs.EmittedJumps
import JmmCompiler.Proofs.LabelLines
import JmmCompiler.Proofs.Soundness
import JmmCompiler.Proofs.Rewriting
import JmmCompiler.Proofs.Prepared
import JmmCompiler.Proofs.Flow
import JmmCompiler.Proofs.Returns
import JmmCompiler.Proofs.ReturnPaths
import JmmCompiler.Proofs.EmittedReturns
import JmmCompiler.Proofs.ReturnFlow
import JmmCompiler.Proofs.StagedMethods
import JmmCompiler.Proofs.StagedProgram
import JmmCompiler.Proofs.LoweredCode
import JmmCompiler.Proofs.LoweredMethods
import JmmCompiler.Proofs.LivePaths
import JmmCompiler.Proofs.CallOrder
import JmmCompiler.Proofs.OptimizedProgram
import JmmCompiler.Proofs.FlatCode
import JmmCompiler.Proofs.StackLimits
import JmmCompiler.Proofs.LoadableCode
import JmmCompiler.Proofs.MovedValues
import JmmCompiler.Proofs.TypedProgram
import JmmCompiler.Proofs.CompiledProgram
import JmmCompiler.Proofs.GreedyColoring
import JmmCompiler.Proofs.NormalCalls
import JmmCompiler.Proofs.LoweredTypes
import JmmCompiler.Proofs.CallOrigins
import JmmCompiler.Proofs.CallLines
import JmmCompiler.Proofs.LinkedCalls
import JmmCompiler.Proofs.SlotCounts
import JmmCompiler.Proofs.Assigned
import JmmCompiler.Proofs.Makers
import JmmCompiler.Proofs.Temporaries
import JmmCompiler.Proofs.WrittenLines
import JmmCompiler.Proofs.StaticCode
import JmmCompiler.Proofs.StaticMethods
import JmmCompiler.Proofs.ConstantRuns
import JmmCompiler.Proofs.Hoisting
import JmmCompiler.Proofs.TreeWalk
import JmmCompiler.Proofs.AnchoredLabels
import JmmCompiler.Proofs.ConstantRounds
import JmmCompiler.Proofs.LoweredLiterals
import JmmCompiler.Proofs.WordConstants
import JmmCompiler.Proofs.PlainEvaluation
import JmmCompiler.Proofs.FoldableTrees
import JmmCompiler.Proofs.PropagatedRuns
import JmmCompiler.Proofs.FoldedProgram
import JmmCompiler.Proofs.ImportNames
import JmmCompiler.Proofs.LoweredProgram
