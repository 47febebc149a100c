import ChocoRV.Alloc.Allocation
import ChocoRV.Alloc.FlowGraph
import ChocoRV.Alloc.Interval
import ChocoRV.Alloc.Liveness
import ChocoRV.Alloc.Scan
import ChocoRV.Asm.Instr
import ChocoRV.Asm.Listing
import ChocoRV.Asm.Program
import ChocoRV.Asm.Register
import ChocoRV.Command.Arguments
import ChocoRV.Command.Run
import ChocoRV.Command.Usage
import ChocoRV.Compile
import ChocoRV.Constant
import ChocoRV.DataSegment
import ChocoRV.Diagnostic
import ChocoRV.Draft.Basic
import ChocoRV.Draft.Expr
import ChocoRV.Draft.Function
import ChocoRV.Draft.Placement
import ChocoRV.Draft.Stmt
import ChocoRV.Files.Basic
import ChocoRV.Files.Path
import ChocoRV.Files.Tree
import ChocoRV.Frame
import ChocoRV.Json.Basic
import ChocoRV.Json.Parser
import ChocoRV.Json.Printer
import ChocoRV.Machine.Image
import ChocoRV.Machine.Memory
import ChocoRV.Machine.Run
import ChocoRV.Machine.State
import ChocoRV.Machine.Step
import ChocoRV.Main
import ChocoRV.Object
import ChocoRV.Proofs.Alloc.Agree
import ChocoRV.Proofs.Alloc.Expand
import ChocoRV.Proofs.Alloc.Greedy
import ChocoRV.Proofs.Alloc.Held
import ChocoRV.Proofs.Alloc.Interference
import ChocoRV.Proofs.Alloc.Interval
import ChocoRV.Proofs.Alloc.LeastSpills
import ChocoRV.Proofs.Alloc.LivePath
import ChocoRV.Proofs.Alloc.Liveness
import ChocoRV.Proofs.Alloc.NoSpill
import ChocoRV.Proofs.Alloc.Operands
import ChocoRV.Proofs.Alloc.Places
import ChocoRV.Proofs.Alloc.Preserve
import ChocoRV.Proofs.Alloc.Reload
import ChocoRV.Proofs.Alloc.Rewrite
import ChocoRV.Proofs.Alloc.Scan
import ChocoRV.Proofs.Alloc.Simulate
import ChocoRV.Proofs.Alloc.Surround
import ChocoRV.Proofs.ArgumentWords
import ChocoRV.Proofs.Call.Activation
import ChocoRV.Proofs.Call.Frames
import ChocoRV.Proofs.Call.Observed
import ChocoRV.Proofs.Call.Passing
import ChocoRV.Proofs.Call.Registers
import ChocoRV.Proofs.Call.Units
import ChocoRV.Proofs.Call.Words
import ChocoRV.Proofs.CalleeSaved
import ChocoRV.Proofs.ClassLayout
import ChocoRV.Proofs.Concatenation
import ChocoRV.Proofs.Constant
import ChocoRV.Proofs.DataSegment
import ChocoRV.Proofs.Draft.BothModes
import ChocoRV.Proofs.Draft.Fields
import ChocoRV.Proofs.Draft.Fills
import ChocoRV.Proofs.Draft.Forms
import ChocoRV.Proofs.Draft.Links
import ChocoRV.Proofs.Draft.Lockstep
import ChocoRV.Proofs.Draft.Modes
import ChocoRV.Proofs.Draft.Nesting
import ChocoRV.Proofs.Draft.Owned
import ChocoRV.Proofs.Draft.Placing
import ChocoRV.Proofs.Draft.Replay
import ChocoRV.Proofs.Draft.Rules
import ChocoRV.Proofs.Draft.Supply
import ChocoRV.Proofs.Draft.Trace
import ChocoRV.Proofs.Draft.Unbroken
import ChocoRV.Proofs.Draft.Units
import ChocoRV.Proofs.Draft.Writes
import ChocoRV.Proofs.Draft.Yields
import ChocoRV.Proofs.Encoding
import ChocoRV.Proofs.ErrorExits
import ChocoRV.Proofs.Except
import ChocoRV.Proofs.FailedRuns
import ChocoRV.Proofs.FloorDivision
import ChocoRV.Proofs.FrameSlots
import ChocoRV.Proofs.GuardedAccess
import ChocoRV.Proofs.Heap
import ChocoRV.Proofs.HeldTemporaries
import ChocoRV.Proofs.IndexGuards
import ChocoRV.Proofs.Interning
import ChocoRV.Proofs.Json.Text
import ChocoRV.Proofs.Link
import ChocoRV.Proofs.Listing.Operation
import ChocoRV.Proofs.Listing.Reader
import ChocoRV.Proofs.LoadedData
import ChocoRV.Proofs.Machine.Block
import ChocoRV.Proofs.Machine.Exits
import ChocoRV.Proofs.Machine.LastLabels
import ChocoRV.Proofs.Machine.Layout
import ChocoRV.Proofs.Machine.Load
import ChocoRV.Proofs.Machine.Objects
import ChocoRV.Proofs.Machine.Place
import ChocoRV.Proofs.Machine.Region
import ChocoRV.Proofs.Machine.Run
import ChocoRV.Proofs.Machine.Sequence
import ChocoRV.Proofs.Machine.Simulation
import ChocoRV.Proofs.Machine.State
import ChocoRV.Proofs.Machine.Straight
import ChocoRV.Proofs.Machine.Walk
import ChocoRV.Proofs.NoTemporaries
import ChocoRV.Proofs.ObjectModel
import ChocoRV.Proofs.Operand
import ChocoRV.Proofs.OperandEffects
import ChocoRV.Proofs.Operator
import ChocoRV.Proofs.PoolThreshold
import ChocoRV.Proofs.Printing
import ChocoRV.Proofs.RegisterDemand
import ChocoRV.Proofs.Routine.Alloc
import ChocoRV.Proofs.Routine.Fresh
import ChocoRV.Proofs.Routine.Loaded
import ChocoRV.Proofs.Routine.Loops
import ChocoRV.Proofs.Source.RoundTrip
import ChocoRV.Proofs.Stack.Balance
import ChocoRV.Proofs.Stack.Levels
import ChocoRV.Proofs.Stack.Statements
import ChocoRV.Proofs.StackBalance
import ChocoRV.Proofs.StaticChain
import ChocoRV.Proofs.StepBudget
import ChocoRV.Proofs.StringEquality
import ChocoRV.Proofs.StringReads
import ChocoRV.Proofs.Symbol.Built
import ChocoRV.Proofs.Symbol.Chain
import ChocoRV.Proofs.Symbol.Classes
import ChocoRV.Proofs.Symbol.Closed
import ChocoRV.Proofs.Symbol.Locals
import ChocoRV.Proofs.Symbol.Members
import ChocoRV.Proofs.Symbol.Naming
import ChocoRV.Proofs.Symbol.Offsets
import ChocoRV.Proofs.Symbol.Params
import ChocoRV.Proofs.Symbol.Predefined
import ChocoRV.Proofs.SymbolArena
import ChocoRV.Proofs.Texts
import ChocoRV.Proofs.UniqueLabels
import ChocoRV.Proofs.Utf8
import ChocoRV.Proofs.WrittenFirst
import ChocoRV.Routine.Basic
import ChocoRV.Routine.Code
import ChocoRV.Settings.Basic
import ChocoRV.Settings.Reader
import ChocoRV.Source.Decode
import ChocoRV.Source.Encode
import ChocoRV.Source.Program
import ChocoRV.Source.Span
import ChocoRV.Symbol.Analysis
import ChocoRV.Symbol.Table
import ChocoRV.Text.Similarity
import ChocoRV.Text.Utf8
import ChocoRV.Toml.Basic
import ChocoRV.Toml.Document
import ChocoRV.Toml.Reader
import ChocoRV.Toml.Scalar
import ChocoRV.Word
