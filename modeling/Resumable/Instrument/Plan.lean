import Resumable.Flow.Analysis

/-!
# Suspension plans

A suspension point is a call that may suspend. Its plan says, for every operand and every local that
is live there, in which slot of the coroutine frame it is kept. A frame has two buffers, one for
references and one for primitives, and each buffer is filled from slot 0 on.

Null is not kept but made again. An object under construction is not kept either: its plan marks the
instructions that made it, which are left out and made up for in front of the constructor call.
-/

namespace Resumable

/-- Calls that block the thread they run on. -/
def blockingMethods : List MemberRef :=
  [⟨Names.thread, "sleep", "(J)V"⟩,
    ⟨Names.thread, "sleep", "(JI)V"⟩,
    ⟨Names.thread, "join", "()V"⟩,
    ⟨Names.thread, "join", "(J)V"⟩,
    ⟨Names.thread, "join", "(JI)V"⟩,
    ⟨Names.object, "wait", "()V"⟩,
    ⟨Names.object, "wait", "(J)V"⟩,
    ⟨Names.object, "wait", "(JI)V"⟩,
    ⟨Names.lock, "lock", "()V"⟩,
    ⟨Names.lock, "lockInterruptibly", "()V"⟩]

/-- The place of a call among those that block. -/
def blockingIndex? (m : MemberRef) : Option Nat := blockingMethods.findIdx? (· == m)

/-- What becomes of a value across a suspension. -/
inductive SlotAction where
  /-- It is kept in a slot. -/
  | saved (kind : SlotKind) (slot : UInt32)
  /-- It is null and is made again. -/
  | null
  /-- It is an object under construction, whose allocation is put off. -/
  | omitted
  deriving DecidableEq, Repr, Inhabited

/-- The plan for one call. -/
structure SuspensionPoint where
  /-- The index of the call. -/
  index : Nat
  /-- The call is the suspend call itself. -/
  isYield : Bool
  /-- What becomes of each operand, from the bottom of the operand stack. -/
  stack : List SlotAction
  /-- What becomes of the live locals. -/
  locals : List (UInt16 × SlotAction)
  /-- The slots that the coroutine frame needs. -/
  slots : UInt32
  deriving DecidableEq, Repr

namespace SuspensionPoint

/-- The number of slots taken so far in each of the two buffers. -/
structure Counters where
  refs : UInt32 := 0
  prims : UInt32 := 0

/-- Takes the next slot of the buffer for values of this kind, unless they cannot be counted any
further. -/
def Counters.take (c : Counters) (kind : SlotKind) : Except FlowError (SlotAction × Counters) :=
  if kind.isReference then
    if c.refs = 0xFFFFFFFF then throw .slotOverflow
    else return (.saved kind c.refs, { c with refs := c.refs + 1 })
  else
    if c.prims = 0xFFFFFFFF then throw .slotOverflow
    else return (.saved kind c.prims, { c with prims := c.prims + 1 })

/-- What becomes of a value that is no object under construction, if anything is known of it. -/
def Counters.assign (c : Counters) (v : FlowValue) :
    Except FlowError (Option (SlotAction × Counters)) :=
  match v with
  | .null => return some (.null, c)
  | _ =>
    match v.slotKind? with
    | some kind => some <$> c.take kind
    | none => return none

/-- Plans the operand at `position`. Nothing can be planned for one of which nothing is known. -/
def planOperand (position : Nat) (v : FlowValue) (c : Counters) :
    Except FlowError (SlotAction × Counters) :=
  match v with
  | .fresh .. => return (.omitted, c)
  | _ => do
    match ← c.assign v with
    | some planned => return planned
    | none => throw (.unknownOperand position)

/-- Plans operands, the lowest of them at `position`. -/
def planStack : (position : Nat) → List FlowValue → Counters →
    Except FlowError (List SlotAction × Counters)
  | _, [], c => .ok ([], c)
  | position, v :: rest, c => do
    let (action, c) ← planOperand position v c
    let (actions, c) ← planStack (position + 1) rest c
    return (action :: actions, c)

/-- Plans locals, the first of them with number `index`. Those of which nothing is known are dead. -/
def planLocals : (index : Nat) → List FlowValue → Counters →
    Except FlowError (List (UInt16 × SlotAction) × Counters)
  | _, [], c => .ok ([], c)
  | index, v :: rest, c => do
    match ← c.assign v with
    | none => planLocals (index + 1) rest c
    | some (action, c) =>
      if 0xFFFF < index then throw .localOverflow
      let (actions, c) ← planLocals (index + 1) rest c
      return ((UInt16.ofNat index, action) :: actions, c)

/-- The plan for the call at `index` in the frame `f`. Locals below `firstLocal` are left alone. -/
def plan (index : Nat) (isYield : Bool) (f : Frame) (firstLocal : Nat) :
    Except FlowError SuspensionPoint := do
  let (stack, c) ← planStack 0 f.stack.reverse {}
  let (locals, c) ← planLocals firstLocal (f.locals.drop firstLocal) c
  return { index, isYield, stack, locals, slots := max c.refs c.prims }

end SuspensionPoint

/-- The instructions that made the objects under construction among some operands, counted from the
bottom up to the first operand that cannot be planned. -/
def omittedInstrs (stack : List FlowValue) : List Nat :=
  (stack.takeWhile (· != .unknown)).filterMap fun
    | .fresh _ _ insn _ => some insn
    | _ => none

/-- The suspension points of a method in the order of the code, and the indices of the instructions
that are left out. -/
structure MethodPlan where
  points : List SuspensionPoint := []
  omitted : List Nat := []
  deriving Repr, Inhabited

/-- A method together with what the analysis found. -/
structure Analysed where
  owner : String
  method : Method
  frames : Array (Option Frame)

namespace Analysed

/-- The method of a class with its frames. -/
def of (owner : String) (m : Method) : Flow.Attempt Analysed :=
  return ⟨owner, m, ← analyze owner m⟩

def frame? (a : Analysed) (index : Nat) : Option Frame := a.frames[index]?.join

/-- The locals below this one are not saved: an instance method is entered again with the receiver
it was called on. -/
def firstLocal (a : Analysed) : Nat := if a.method.isStatic then 0 else 1

def unable (a : Analysed) (reason : Reason) : InstrumentError :=
  .unable reason a.owner a.method.name a.method.desc

/-- The plan as far as it has come, and which blocking calls have been warned of. -/
structure Progress where
  plan : MethodPlan := {}
  warned : List Nat := []

/-- Looks at the call at `index`, which is reached with the frame `f`. -/
def planCall (a : Analysed) (index : Nat) (op : Opcode) (callee : MemberRef) (f : Frame) :
    StateT Progress Inquiry (Except InstrumentError Unit) := do
  let searchSuper := op == .invokevirtual || op == .invokestatic
  if ← Inquiry.isSuspendable callee.owner callee.name callee.desc searchSuper then
    Inquiry.log .debug (.suspendableCall index callee.owner callee.name callee.desc)
    let isYield := Names.isYield callee.owner callee.name callee.desc
    if isYield && op != .invokestatic then return .error (a.unable .invalidYield)
    modify fun p =>
      { p with plan.omitted := p.plan.omitted ++ omittedInstrs f.stack.reverse }
    match SuspensionPoint.plan index isYield f a.firstLocal with
    | .error cause => return .error (Flow.failure a.owner a.method index cause)
    | .ok point =>
      modify fun p => { p with plan.points := p.plan.points ++ [point] }
      return .ok ()
  else
    match blockingIndex? callee with
    | none => return .ok ()
    | some id =>
      if !(← getThe Database).options.allowBlocking then
        return .error (a.unable (.blockingCall callee.owner callee.name callee.desc))
      if !(← get).warned.contains id then
        modify fun p => { p with warned := id :: p.warned }
        Inquiry.log .warning (.blocking a.owner a.method.name a.method.desc callee.owner
          callee.name callee.desc)
      return .ok ()

/-- Looks at the calls among some instructions. -/
def planCalls (a : Analysed) :
    List (Instr × Nat) → StateT Progress Inquiry (Except InstrumentError Unit)
  | [] => return .ok ()
  | (i, index) :: rest => do
    match i, a.frame? index with
    | .invoke op callee, some f =>
      match ← a.planCall index op callee f with
      | .error e => return .error e
      | .ok () => a.planCalls rest
    | _, _ => a.planCalls rest

/-- Finds the suspension points of the method. If one cannot be planned, those in front of it are
still there. -/
def plan (a : Analysed) : Inquiry (MethodPlan × Except InstrumentError Unit) := do
  let (outcome, progress) ← (a.planCalls a.method.code.zipIdx).run {}
  return (progress.plan, outcome)

end Analysed

end Resumable
