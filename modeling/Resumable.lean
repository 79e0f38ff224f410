import Resumable.Names
import Resumable.Opcode
import Resumable.Instr
import Resumable.Descriptor
import Resumable.Decimal.Shortest
import Resumable.Text.Quoted
import Resumable.ClassDef.Basic
import Resumable.ClassDef.Listing
import Resumable.ClassDef.Verify
import Resumable.ClassDef.Builder
import Resumable.ClassDef.Json
import Resumable.Binary.ClassFile
import Resumable.Json.Basic
import Resumable.Json.Draft
import Resumable.Suspendable.Database
import Resumable.Flow.Analysis
import Resumable.Instrument.Class
import Resumable.Coroutine.SnapshotJson
import Resumable.Coroutine.ScriptJson
import Resumable.Machine.Basic
import Resumable.Machine.BenchJson
import Resumable.Disk.UnitFile
import Resumable.Tool.Batch
import Resumable.Tool.Report
import Resumable.Tool.CommandLine
import Resumable.Main
import Resumable.Proofs.FrameStack.Nesting
import Resumable.Proofs.FrameStack.Chain
import Resumable.Proofs.Outcome
import Resumable.Proofs.Labels
import Resumable.Proofs.Flow.Order
import Resumable.Proofs.Flow.Fixpoint
import Resumable.Proofs.Machine.Operands
import Resumable.Proofs.Machine.Runs
import Resumable.Proofs.Machine.Errors
import Resumable.Proofs.Flow.Soundness
import Resumable.Proofs.Flow.Transfer
import Resumable.Proofs.Instrument.Plan
import Resumable.Proofs.Instrument.Slots
import Resumable.Proofs.Instrument.Layout
import Resumable.Proofs.Instrument.Resume
import Resumable.Proofs.Instrument.Unwinding
import Resumable.Proofs.Instrument.Suspension
import Resumable.Proofs.Flow.Invariant
import Resumable.Proofs.ClassDef.Verify
import Resumable.Proofs.Instrument.Account
import Resumable.Proofs.Instrument.Positions
import Resumable.Proofs.Instrument.Ranges
import Resumable.Proofs.Instrument.Stretches
import Resumable.Proofs.Instrument.Preservation
import Resumable.Proofs.Instrument.Verified
import Resumable.Proofs.Machine.Spares
import Resumable.Proofs.Machine.Steps
import Resumable.Proofs.Machine.Executions
import Resumable.Proofs.Instrument.Frames
import Resumable.Proofs.Instrument.Phases
import Resumable.Proofs.Instrument.Stages
import Resumable.Proofs.Instrument.Discipline
import Resumable.Proofs.Flow.Course
import Resumable.Proofs.Suspendable.Hierarchy
import Resumable.Proofs.Flow.Heights
import Resumable.Proofs.Flow.Settling
import Resumable.Proofs.Flow.Balance
import Resumable.Proofs.Flow.Origins
import Resumable.Proofs.Instrument.Climb
import Resumable.Proofs.Binary.Reading
import Resumable.Proofs.Binary.RoundTrip
import Resumable.Proofs.Binary.Accepting
import Resumable.Proofs.Binary.Canonical
import Resumable.Proofs.Coroutine.NestedRuns
import Resumable.Proofs.FrameStack.Snapshot
import Resumable.Proofs.Flow.Steadiness
import Resumable.Proofs.Instrument.Steadiness
import Resumable.Proofs.Suspendable.Requests
import Resumable.Proofs.Instrument.Acceptance
import Resumable.Proofs.Suspendable.Learning
import Resumable.Proofs.Instrument.Learning
import Resumable.Proofs.Instrument.Idempotence
import Resumable.Proofs.Coroutine.Iterators
import Resumable.Proofs.Coroutine.Locals
import Resumable.Proofs.Coroutine.Chronicle
import Resumable.Proofs.Coroutine.Isolation
import Resumable.Proofs.FrameStack.Operations
import Resumable.Proofs.FrameStack.References
import Resumable.Proofs.Machine.Locals
import Resumable.Proofs.Instrument.Receiver
import Resumable.Proofs.Json.RoundTrip
import Resumable.Proofs.Flow.Joins
import Resumable.Proofs.Flow.Solution
import Resumable.Proofs.Machine.Effects
import Resumable.Proofs.Machine.Activity
import Resumable.Proofs.Machine.Verified
import Resumable.Proofs.Binary.Delimiting
import Resumable.Proofs.Descriptor.Grammar
import Resumable.Proofs.Descriptor.Offsets
import Resumable.Proofs.FrameStack.Numbering
import Resumable.Proofs.FrameStack.Bounds
import Resumable.Proofs.Instrument.Prohibitions
import Resumable.Proofs.Ways
import Resumable.Proofs.Machine.Subtypes
import Resumable.Proofs.Suspendable.Ancestors
import Resumable.Proofs.Machine.Dispatch
import Resumable.Proofs.Disk.Paths
import Resumable.Proofs.Disk.Writing
import Resumable.Proofs.Binary.Lengths
import Resumable.Proofs.Instrument.Additions
import Resumable.Proofs.Instrument.Constructors
import Resumable.Proofs.Tool.Course
import Resumable.Proofs.Tool.Emission
import Resumable.Proofs.Tool.Batch
import Resumable.Proofs.Machine.HostCalls
import Resumable.Proofs.Machine.Parallel
import Resumable.Proofs.Instrument.Balance
import Resumable.Proofs.Instrument.Revisions
import Resumable.Proofs.Instrument.Careful
import Resumable.Proofs.Instrument.Mirrors
import Resumable.Proofs.Instrument.Passages
import Resumable.Proofs.Instrument.Callers
import Resumable.Proofs.Instrument.Lockstep
import Resumable.Proofs.Instrument.WholeRuns
