import ScriptEngine.Builtin.Behavior
import ScriptEngine.Builtin.Method
import ScriptEngine.Builtin.Registry
import ScriptEngine.Bytecode.Code
import ScriptEngine.Bytecode.Opcode
import ScriptEngine.Compiler.Basic
import ScriptEngine.Compiler.Emission
import ScriptEngine.Compiler.Error
import ScriptEngine.Compiler.Generate
import ScriptEngine.Concurrency.Blocking
import ScriptEngine.Embed.Conversion
import ScriptEngine.Embed.Engine
import ScriptEngine.Embed.Error
import ScriptEngine.Host.Session
import ScriptEngine.Host.Toolkit
import ScriptEngine.Machine.Activity
import ScriptEngine.Machine.Config
import ScriptEngine.Machine.Error
import ScriptEngine.Machine.Execute
import ScriptEngine.Machine.Fiber
import ScriptEngine.Machine.Stack
import ScriptEngine.Machine.State
import ScriptEngine.Machine.System
import ScriptEngine.Number.Double
import ScriptEngine.Number.Integer
import ScriptEngine.Number.Literal
import ScriptEngine.Number.Shortest
import ScriptEngine.Proofs.Code.Decoding
import ScriptEngine.Proofs.Code.Homes
import ScriptEngine.Proofs.Code.Legal
import ScriptEngine.Proofs.Code.Parallel
import ScriptEngine.Proofs.Code.Stores
import ScriptEngine.Proofs.Code.Typed
import ScriptEngine.Proofs.Code.Walk
import ScriptEngine.Proofs.Compiler.Arguments
import ScriptEngine.Proofs.Compiler.Arithmetic
import ScriptEngine.Proofs.Compiler.Assignments
import ScriptEngine.Proofs.Compiler.Batches
import ScriptEngine.Proofs.Compiler.Builtins
import ScriptEngine.Proofs.Compiler.Declared
import ScriptEngine.Proofs.Compiler.Evaluated
import ScriptEngine.Proofs.Compiler.Homes
import ScriptEngine.Proofs.Compiler.Pipes
import ScriptEngine.Proofs.Compiler.Pools
import ScriptEngine.Proofs.Compiler.Refusal
import ScriptEngine.Proofs.Compiler.Scripts
import ScriptEngine.Proofs.Compiler.Seams
import ScriptEngine.Proofs.Compiler.ShortCircuits
import ScriptEngine.Proofs.Compiler.Slices
import ScriptEngine.Proofs.Compiler.Stores
import ScriptEngine.Proofs.Compiler.Typed
import ScriptEngine.Proofs.Compiler.WellFormed
import ScriptEngine.Proofs.Concurrency.Waiters
import ScriptEngine.Proofs.Embed.Compiled
import ScriptEngine.Proofs.Embed.Constants
import ScriptEngine.Proofs.Embed.Conversion
import ScriptEngine.Proofs.Embed.Custody
import ScriptEngine.Proofs.Embed.Globals
import ScriptEngine.Proofs.Embed.History
import ScriptEngine.Proofs.Embed.HostCalls
import ScriptEngine.Proofs.Embed.Life
import ScriptEngine.Proofs.Embed.Once
import ScriptEngine.Proofs.Embed.Placed
import ScriptEngine.Proofs.Embed.Registered
import ScriptEngine.Proofs.Embed.Runs
import ScriptEngine.Proofs.Embed.Safety
import ScriptEngine.Proofs.Embed.Texts
import ScriptEngine.Proofs.Evaluation.Bindings
import ScriptEngine.Proofs.Evaluation.Carries
import ScriptEngine.Proofs.Evaluation.Constructs
import ScriptEngine.Proofs.Evaluation.Evaluator
import ScriptEngine.Proofs.Evaluation.Instructions
import ScriptEngine.Proofs.Evaluation.Loops
import ScriptEngine.Proofs.Evaluation.Runs
import ScriptEngine.Proofs.Evaluation.Trees
import ScriptEngine.Proofs.Heap.Cells
import ScriptEngine.Proofs.Heap.Discipline
import ScriptEngine.Proofs.Heap.Equality
import ScriptEngine.Proofs.Heap.Iterators
import ScriptEngine.Proofs.Heap.Nesting
import ScriptEngine.Proofs.Heap.Operations
import ScriptEngine.Proofs.Heap.Replacement
import ScriptEngine.Proofs.Heap.Sequences
import ScriptEngine.Proofs.Heap.Termination
import ScriptEngine.Proofs.Layout.Basic
import ScriptEngine.Proofs.Layout.Chains
import ScriptEngine.Proofs.Layout.Correct
import ScriptEngine.Proofs.Layout.Emission
import ScriptEngine.Proofs.Layout.Frames
import ScriptEngine.Proofs.Layout.Homes
import ScriptEngine.Proofs.Layout.Keeps
import ScriptEngine.Proofs.Layout.Legal
import ScriptEngine.Proofs.Layout.Lockstep
import ScriptEngine.Proofs.Layout.Made
import ScriptEngine.Proofs.Layout.Matched
import ScriptEngine.Proofs.Layout.Parts
import ScriptEngine.Proofs.Layout.Pipes
import ScriptEngine.Proofs.Layout.Piping
import ScriptEngine.Proofs.Layout.Places
import ScriptEngine.Proofs.Layout.Pools
import ScriptEngine.Proofs.Layout.Requests
import ScriptEngine.Proofs.Layout.Spans
import ScriptEngine.Proofs.Layout.Steps
import ScriptEngine.Proofs.Layout.Stores
import ScriptEngine.Proofs.Layout.Typed
import ScriptEngine.Proofs.Machine.Activations
import ScriptEngine.Proofs.Machine.Activities
import ScriptEngine.Proofs.Machine.Arguments
import ScriptEngine.Proofs.Machine.Bounds
import ScriptEngine.Proofs.Machine.Calls
import ScriptEngine.Proofs.Machine.Cancellation
import ScriptEngine.Proofs.Machine.Cells
import ScriptEngine.Proofs.Machine.Charges
import ScriptEngine.Proofs.Machine.Deadlines
import ScriptEngine.Proofs.Machine.Executions
import ScriptEngine.Proofs.Machine.Fibers
import ScriptEngine.Proofs.Machine.Halting
import ScriptEngine.Proofs.Machine.Homes
import ScriptEngine.Proofs.Machine.Instructions
import ScriptEngine.Proofs.Machine.Moments
import ScriptEngine.Proofs.Machine.Outcomes
import ScriptEngine.Proofs.Machine.Paths
import ScriptEngine.Proofs.Machine.Pipes
import ScriptEngine.Proofs.Machine.Places
import ScriptEngine.Proofs.Machine.Primitives
import ScriptEngine.Proofs.Machine.Residents
import ScriptEngine.Proofs.Machine.Steady
import ScriptEngine.Proofs.Machine.Turn
import ScriptEngine.Proofs.Machine.Typing
import ScriptEngine.Proofs.Machine.Usage
import ScriptEngine.Proofs.Machine.Values
import ScriptEngine.Proofs.Number.Integer
import ScriptEngine.Proofs.Plan.Basic
import ScriptEngine.Proofs.Plan.Guarded
import ScriptEngine.Proofs.Plan.Outline
import ScriptEngine.Proofs.Plan.Quiet
import ScriptEngine.Proofs.Plan.Requests
import ScriptEngine.Proofs.Plan.Shape
import ScriptEngine.Proofs.Plan.TreeShapes
import ScriptEngine.Proofs.Plan.Trees
import ScriptEngine.Proofs.Resource.Derivations
import ScriptEngine.Proofs.Scope.Chain
import ScriptEngine.Proofs.Scope.Growth
import ScriptEngine.Proofs.Scope.Lexical
import ScriptEngine.Proofs.Scope.Lookup
import ScriptEngine.Proofs.Scope.Sessions
import ScriptEngine.Proofs.Scope.Shift
import ScriptEngine.Proofs.Scope.Shows
import ScriptEngine.Proofs.Scope.Steps
import ScriptEngine.Proofs.Scope.Variables
import ScriptEngine.Proofs.Step
import ScriptEngine.Resource.Context
import ScriptEngine.Resource.Limit
import ScriptEngine.Scope.Table
import ScriptEngine.Syntax.Operator
import ScriptEngine.Syntax.Tree
import ScriptEngine.Text.Case
import ScriptEngine.Text.CaseTable
import ScriptEngine.Text.Printable
import ScriptEngine.Text.Quoted
import ScriptEngine.Text.Search
import ScriptEngine.Value.Arithmetic
import ScriptEngine.Value.Attribute
import ScriptEngine.Value.Basic
import ScriptEngine.Value.Equality
import ScriptEngine.Value.Fault
import ScriptEngine.Value.Heap
import ScriptEngine.Value.Key
import ScriptEngine.Value.Sequence
import ScriptEngine.Value.Text
