import Resumable.ClassDef.Verify
import Resumable.Flow.Frame
import Resumable.Suspendable.Database

/-!
# Flow analysis

Finds the frame in front of every instruction that can be reached. Frames of joining paths are
merged, which may ask the database where two classes meet; an instruction is looked at again
whenever merging has changed its frame, until nothing changes any more.

A handler is entered from every instruction it covers, with the locals from before the instruction
or from behind it, and the exception alone on the operand stack.
-/

namespace Resumable

/-- Why a class cannot be instrumented. -/
inductive Reason where
  | synchronizedMethod
  | invalidYield
  | blockingCall (owner name desc : String)
  | catchesSignal
  | synchronisation
  | specialMethod
  | tooManyLocals
  deriving DecidableEq, Repr

def Reason.text : Reason → String
  | .synchronizedMethod => "synchronized method"
  | .invalidYield => "invalid call to yield()"
  | .blockingCall owner name desc => s!"blocking call to {owner}#{name}{desc}"
  | .catchesSignal => "catch for SuspendExecution"
  | .synchronisation => "synchronisation"
  | .specialMethod => "special method"
  | .tooManyLocals => "too many locals"

/-- A method of a class is rejected, or fails to be analysed. -/
inductive InstrumentError where
  | unable (reason : Reason) (owner method desc : String)
  | analysis (owner method desc : String) (index : Nat) (cause : FlowError)
  | descriptor (cause : DescriptorError)
  deriving DecidableEq, Repr

def InstrumentError.message : InstrumentError → String
  | .unable reason owner method desc =>
    s!"Unable to instrument class {owner}#{method}{desc} because of {reason.text}"
  | .analysis owner method desc index cause =>
    s!"Analysis of {owner}#{method}{desc} failed at instruction {index}: {cause.message}"
  | .descriptor cause => s!"Invalid descriptor: {cause.message}"

/-- What is known of a value that is one of two. -/
def FlowValue.merge (a b : FlowValue) : Inquiry FlowValue := do
  if a = b then return a
  match a, b with
  | .null, .reference type => return .reference type
  | .reference type, .null => return .reference type
  | .reference s, .reference t =>
    if (elementDescriptor? s).isSome || (elementDescriptor? t).isSome then
      return .reference Names.object
    else return .reference ((← Inquiry.commonSuper s t).getD Names.object)
  | _, _ => return .unknown

namespace Frame

/-- Merges values in pairs, and says whether that has changed any of the first list. Where the second
list is shorter, the first stays as it is. -/
def mergeValues : List FlowValue → List FlowValue → Inquiry (List FlowValue × Bool)
  | a :: as, b :: bs => do
    let merged ← a.merge b
    let (rest, changed) ← mergeValues as bs
    return (merged :: rest, merged != a || changed)
  | as, _ => return (as, false)

/-- Merges the second frame into the first one: whether that changes it, or why it cannot be done, and
the frame as it is then. Operands are merged from the bottom of the stack. -/
def merge (f g : Frame) : Inquiry (Except FlowError Bool × Frame) := do
  if f.stack.length ≠ g.stack.length then
    return (.error (.heightsDiffer f.stack.length g.stack.length), f)
  let (locals, localsChanged) ← mergeValues f.locals g.locals
  let (stack, stackChanged) ← mergeValues f.stack.reverse g.stack.reverse
  return (.ok (localsChanged || stackChanged), ⟨locals, stack.reverse⟩)

end Frame

/-! ### The course of control -/

/-- A handler with the positions of its labels. -/
structure HandlerRange where
  start : Nat
  stop : Nat
  target : Nat
  type : String
  deriving DecidableEq, Repr

def HandlerRange.covers (r : HandlerRange) (index : Nat) : Bool :=
  r.start ≤ index && index < r.stop

/-- Whether control may go on with the next instruction. -/
def Instr.fallsThrough : Instr → Bool
  | .switch .. => false
  | .jump op _ => op != .goto
  | i => !i.opcode.isTerminator

namespace Flow

/-- Frames in front of instructions, as far as known, and the instructions to look at again, the next
one first. -/
structure State where
  frames : Array (Option Frame)
  pending : List Nat

/-- A computation that asks the database and may fail. -/
abbrev Attempt := ExceptT InstrumentError Inquiry

/-- A failure at an instruction of a method. -/
def failure (owner : String) (m : Method) (index : Nat) (cause : FlowError) : InstrumentError :=
  .analysis owner m.name m.desc index cause

/-- The failure of one step is one of the method. -/
def attempt {α : Type} (owner : String) (m : Method) (index : Nat)
    (x : Except FlowError α) : Attempt α :=
  liftExcept (x.mapError (failure owner m index))
where
  liftExcept : Except InstrumentError α → Attempt α
    | .ok a => pure a
    | .error e => throw e

/-- The position of a label that the instruction at `index` refers to. -/
def position (owner : String) (m : Method) (index : Nat) (l : Label) : Attempt Nat :=
  attempt owner m index <|
    match labelPosition? m.code l with
    | some position => .ok position
    | none => .error (.undefinedLabel l)

def handlerRange (owner : String) (m : Method) (h : Handler) : Attempt HandlerRange :=
  return { start := ← position owner m 0 h.start, stop := ← position owner m 0 h.stop
           target := ← position owner m 0 h.target, type := h.catchType.getD Names.throwable }

/-- Writes the parameters into the locals from `index` on. -/
def placeParams (owner : String) (m : Method) :
    (index : Nat) → List FieldType → Frame → Attempt Frame
  | _, [], f => return f
  | index, type :: rest, f =>
    if index < f.locals.length then
      placeParams owner m (index + 1) rest
        { f with locals := f.locals.set index (.ofFieldType type) }
    else throw (failure owner m 0 .tooFewLocals)

/-- What is known on entry: receiver and parameters in the first locals. -/
def entryFrame (owner : String) (m : Method) : Attempt Frame := do
  let type ← match MethodType.parse m.desc with
    | .ok type => pure type
    | .error cause => throw (.descriptor cause)
  let blank := Frame.blank m.maxLocals.toNat
  if m.isStatic then placeParams owner m 0 type.params blank
  else if blank.locals.isEmpty then throw (failure owner m 0 .noReceiverLocal)
  else
    placeParams owner m 1 type.params
      { blank with locals := blank.locals.set 0 (.reference owner) }

/-- Control comes to `target` with the frame `f`. -/
def flowInto (owner : String) (m : Method) (source target : Nat) (f : Frame) (s : State) :
    Attempt State := do
  let visit (s : State) : State :=
    if s.pending.contains target then s else { s with pending := target :: s.pending }
  match s.frames[target]?.join with
  | none => return visit { s with frames := s.frames.setIfInBounds target (some f) }
  | some old =>
    let (answer, merged) ← old.merge f
    let changed ← attempt owner m source answer
    return if changed then visit { s with frames := s.frames.setIfInBounds target (some merged) }
      else s

/-- Control comes to each target in turn. -/
def flowIntoAll (owner : String) (m : Method) (source : Nat) :
    List (Nat × Frame) → State → Attempt State
  | [], s => return s
  | (target, f) :: rest, s => do
    flowIntoAll owner m source rest (← flowInto owner m source target f s)

/-- Looks at the instruction at `index`: runs it on its frame and lets control go on from it. -/
def visit (owner : String) (m : Method) (ranges : List HandlerRange) (index : Nat) (i : Instr)
    (before : Frame) (s : State) : Attempt State := do
  let after ← attempt owner m index (before.step index i)
  let targets ← i.branchTargets.mapM (position owner m index)
  let s ← flowIntoAll owner m index (targets.map (·, after)) s
  let s ←
    if i.fallsThrough then
      if m.code.length ≤ index + 1 then throw (failure owner m index .fallsOffEnd)
      else flowInto owner m index (index + 1) after s
    else pure s
  let caught := ranges.filter (·.covers index)
  flowIntoAll owner m index (caught.flatMap fun r =>
    [before.locals, after.locals].map fun locals => (r.target, ⟨locals, [.reference r.type]⟩)) s

/-- Looks at instructions until none is pending. -/
def settle (owner : String) (m : Method) (ranges : List HandlerRange) (code : Array Instr) :
    (steps : Nat) → State → Attempt (Array (Option Frame))
  | steps, ⟨frames, []⟩ => let _ := steps; return frames
  | 0, _ => throw (failure owner m 0 .unsettled)
  | steps + 1, ⟨frames, index :: pending⟩ =>
    match code[index]?, frames[index]?.join with
    | some i, some before => do
      settle owner m ranges code steps
        (← visit owner m ranges index i before ⟨frames, pending⟩)
    | _, _ => settle owner m ranges code steps ⟨frames, pending⟩

/-- How often an instruction can be looked at, over all instructions: each time, one of its values
has come to be known less, which can happen to one value only once for each class above it. Operand
stacks are no higher than the code is long. -/
def stepBound (m : Method) (reach : Nat) : Nat :=
  let n := m.code.length + 1
  n * ((m.maxLocals.toNat + n) * (reach + 4) + 2)

end Flow

/-- The frame in front of every instruction of a method, none where control never comes. -/
def analyze (owner : String) (m : Method) : Flow.Attempt (Array (Option Frame)) := do
  let ranges ← m.handlers.mapM (Flow.handlerRange owner m)
  if m.code.isEmpty then return #[]
  let entry ← Flow.entryFrame owner m
  let frames := (Array.replicate m.code.length none).setIfInBounds 0 (some entry)
  Flow.settle owner m ranges m.code.toArray
    (Flow.stepBound m (← get).reach) ⟨frames, [0]⟩

end Resumable
