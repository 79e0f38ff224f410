import Resumable.Coroutine.Basic
import Resumable.Machine.Arithmetic
import Resumable.Machine.Classes

/-!
# Activations

An activation is a method at work: its locals, its operands and its place in the code. It works on a
memory that it shares with all others: the heap, the static fields and the coroutines.

`Activation.step` executes one instruction. A call is not carried out here; the activation asks for
it and waits, and `Activation.resume` goes on with the answer. Whatever goes wrong, in an
instruction or in a call, goes through `Activation.raise`: exceptions, and faults that have an
exception, look for a handler; all others end the activation.
-/

namespace Resumable

/-- What activations share. -/
structure Memory where
  heap : Heap := .initial
  /-- Static fields by class and name. -/
  statics : List ((String × String) × Value) := []
  coroutines : Coroutines := {}
  deriving DecidableEq, Repr, Inhabited

namespace Memory

def getStatic? (m : Memory) (owner name : String) : Option Value := m.statics.lookup (owner, name)

def setStatic (m : Memory) (owner name : String) (v : Value) : Memory :=
  { m with statics := ((owner, name), v) :: m.statics.filter (·.1 != (owner, name)) }

end Memory

/-- A call that an activation or the host asks for, the receiver in front of the arguments. -/
structure Call where
  op : Opcode
  member : MemberRef
  args : List Value
  deriving DecidableEq, Repr, Inhabited

/-- A method at work. The top of the operands is the head of `stack`. -/
structure Activation where
  method : LoadedMethod
  locals : List Value
  stack : List Value := []
  pc : Nat := 0
  deriving DecidableEq, Repr, Inhabited

/-- What the activation does after an instruction. -/
inductive Move where
  | next
  | goto (pc : Nat)
  | leave (result : Option Value)
  | call (request : Call)
  deriving DecidableEq, Repr, Inhabited

/-- An instruction at work: it may fail, and what it has done to the memory by then stays. -/
abbrev Exec := StateT Activation (ExceptT RunError (StateM Memory))

namespace Activation

/-- A new activation: the arguments are the first locals, all others are null. -/
def enter (m : LoadedMethod) (args : List Value) : Except RunError Activation :=
  let slots := m.method.maxLocals
  if slots.toNat < args.length then
    .error (.illegalArgument (.tooManyArguments m.ref slots args.length))
  else .ok { method := m, locals := args ++ .replicate (slots.toNat - args.length) .null }

end Activation

namespace Exec

/-! ### Operands -/

def push (v : Value) : Exec Unit := modify fun a => { a with stack := v :: a.stack }

def peek : Exec Value := do
  match (← get).stack with
  | [] => throw .stackUnderflow
  | v :: _ => return v

def pop : Exec Value := do
  match (← get).stack with
  | [] => throw .stackUnderflow
  | v :: rest =>
    modify ({ · with stack := rest })
    return v

/-- Pops a primitive of some kind. -/
def popKind (kind : SlotKind) : Exec Value := do
  let v ← pop
  if v.kind ≠ kind then throw (.type (.expected kind.name))
  return v

def popInt : Exec Int32 := do
  match ← pop with
  | .int v => return v
  | _ => throw (.type (.expected "int"))

def popReference : Exec Value := do
  let v ← pop
  if !v.isReference then throw (.type (.expectedFound "reference" v.typeName))
  return v

/-! ### Memory -/

/-- Throws a new exception. -/
def throwNew {α : Type} (type message : String) : Exec α := do
  let (h, exception) := (← getThe Memory).heap.newException type message
  modifyThe Memory ({ · with heap := h })
  throw (.thrown exception)

def pushNewObject (type : String) : Exec Unit := do
  let (h, v) := (← getThe Memory).heap.newObject type
  modifyThe Memory ({ · with heap := h })
  push v

def pushNewArray (items : Array Value) : Exec Unit := do
  let (h, v) := (← getThe Memory).heap.newArray items
  modifyThe Memory ({ · with heap := h })
  push v

/-- Does something with the stack of the active coroutine. -/
def onStack {α : Type} (f : FrameStack → Except RunError (α × FrameStack)) : Exec α := do
  match (← getThe Memory).coroutines.onStack f with
  | .error e => throw e
  | .ok (a, coroutines) =>
    modifyThe Memory ({ · with coroutines })
    return a

/-- An index into an array of some length. -/
def checkIndex (length : Nat) (index : Int32) : Exec Nat := do
  if index.toInt < 0 ∨ length ≤ index.toInt then
    throwNew Names.indexOutOfBounds s!"index {index.toInt} out of bounds for length {length}"
  return index.toInt.toNat

/-! ### Instructions without operands -/

def arrayLength : Exec Unit := do
  match ← popReference with
  | .array id => push (.int (Int32.ofNat ((← getThe Memory).heap.items id).size))
  | .null => throw .nullPointer
  | v => throw (.type (.expectedFound "array" v.typeName))

def arrayLoad : Exec Unit := do
  let index ← popInt
  match ← popReference with
  | .array id =>
    let items := (← getThe Memory).heap.items id
    let i ← checkIndex items.size index
    push (items[i]?.getD .null)
  | _ => throw .nullPointer

def arrayStore : Exec Unit := do
  let v ← pop
  let index ← popInt
  match ← popReference with
  | .array id =>
    let length := ((← getThe Memory).heap.items id).size
    let i ← checkIndex length index
    modifyThe Memory fun m => { m with heap := m.heap.setItem id i v }
  | _ => throw .nullPointer

def simple (op : Opcode) : Exec Move := do
  match op with
  | .nop => return .next
  | .aconstNull => push .null; return .next
  | .pop => let _ ← pop; return .next
  | .dup => push (← peek); return .next
  | .dupX1 =>
    let a ← pop
    let b ← pop
    push a; push b; push a
    return .next
  | .swap =>
    let a ← pop
    let b ← pop
    push a; push b
    return .next
  | .ireturn | .lreturn | .freturn | .dreturn | .areturn => return .leave (some (← pop))
  | .ret => return .leave none
  | .athrow =>
    let v ← popReference
    if v.isNull then throw .nullPointer
    throw (.thrown v)
  | .monitorenter | .monitorexit =>
    if (← popReference).isNull then throw .nullPointer
    return .next
  | .arraylength => arrayLength; return .next
  | .aaload | .iaload => arrayLoad; return .next
  | .aastore | .iastore => arrayStore; return .next
  | op =>
    match op.unary?, op.binary? with
    | some (kind, f), _ =>
      push (f (← popKind kind))
      return .next
    | none, some (kind, f) =>
      let b ← popKind kind
      let a ← popKind kind
      match f a b with
      | .ok v =>
        push v
        return .next
      | .error e => throw e
    | none, none => throw (.code (.needsOperands op))

/-! ### Locals and jumps -/

def local? (index : UInt16) : Exec Value := do
  match (← get).locals[index.toNat]? with
  | some v => return v
  | none => throw (.code (.localOutOfRange index))

/-- Puts a value into a local that is there. -/
def setLocal (index : UInt16) (v : Value) : Exec Unit := do
  let _ ← local? index
  modify fun a => { a with locals := a.locals.set index.toNat v }

def onLocal (op : Opcode) (index : UInt16) : Exec Unit := do
  match op with
  | .iload | .lload | .fload | .dload | .aload => push (← local? index)
  | .istore | .lstore | .fstore | .dstore | .astore =>
    let v ← pop
    setLocal index v
  | op => throw (.code (.notLocal op))

def increment (index : UInt16) (delta : Int32) : Exec Unit := do
  match ← local? index with
  | .int v => setLocal index (.int (v + delta))
  | _ => throw (.type (.expected "int"))

/-- Whether a jump is taken. -/
def condition (op : Opcode) : Exec Bool := do
  match op.intTest?, op.intComparison? with
  | some test, _ => return test (← popInt)
  | none, some compare =>
    let b ← popInt
    let a ← popInt
    return compare a b
  | none, none =>
    match op with
    | .goto => return true
    | .ifAcmpeq =>
      let b ← popReference
      let a ← popReference
      return a.isSameReference b
    | .ifAcmpne =>
      let b ← popReference
      let a ← popReference
      return !a.isSameReference b
    | .ifnull => return (← popReference).isNull
    | .ifnonnull => return !(← popReference).isNull
    | op => throw (.code (.notJump op))

def jumpTo (l : Label) : Exec Move := do
  match (← get).method.position l with
  | .ok pc => return .goto pc
  | .error e => throw e

/-! ### Fields, calls and types -/

def field (op : Opcode) (member : MemberRef) : Exec Unit := do
  match op with
  | .getfield =>
    match ← popReference with
    | .object id =>
      push (((← getThe Memory).heap.getField? id member.name).getD (.initial member.desc))
    | _ => throw .nullPointer
  | .putfield =>
    let v ← pop
    match ← popReference with
    | .object id => modifyThe Memory fun m => { m with heap := m.heap.setField id member.name v }
    | _ => throw .nullPointer
  | .getstatic =>
    push (((← getThe Memory).getStatic? member.owner member.name).getD (.initial member.desc))
  | .putstatic =>
    let v ← pop
    modifyThe Memory (·.setStatic member.owner member.name v)
  | op => throw (.code (.notField op))

/-- The type of the method that an instruction calls. -/
def methodType (desc : String) : Except RunError MethodType :=
  (MethodType.parse desc).mapError fun cause => .verify (.descriptor cause)

/-- Takes the arguments of a call off the operands. -/
def request (op : Opcode) (member : MemberRef) : Exec Call := do
  match methodType member.desc with
  | .error e => throw e
  | .ok type =>
    let count := type.arity + if op = .invokestatic then 0 else 1
    let stack := (← get).stack
    if stack.length < count then throw .stackUnderflow
    modify ({ · with stack := stack.drop count })
    return ⟨op, member, (stack.take count).reverse⟩

def onType (classes : ClassTable) (op : Opcode) (desc : String) : Exec Unit := do
  match op with
  | .new =>
    if !classes.contains desc then throw (.noSuchClass desc)
    pushNewObject desc
  | .checkcast =>
    let v ← peek
    let h := (← getThe Memory).heap
    if !v.isNull && !classes.isInstance h v desc then
      let type := (h.className? v).getD "?"
      throwNew Names.classCast s!"{type} cannot be cast to {desc}"
  | .instanceOf =>
    let v ← popReference
    push (.int (if classes.isInstance (← getThe Memory).heap v desc then 1 else 0))
  | .newarray =>
    let length ← popInt
    if length < 0 then throwNew Names.negativeArraySize (toString length.toInt)
    pushNewArray (.replicate length.toInt.toNat (.initial desc))
  | op => throw (.code (.notType op))

/-! ### Coroutine frames -/

def frame : FrameOp → Exec Unit
  | .entry => do
    let index ← onStack fun s => .ok s.enter
    if Nat.pow 2 31 ≤ index.toNat then throw (.invalidState (.entryOutOfRange index))
    push (.int index.toInt32)
  | .reserve index slots => onStack fun s => return ((), ← s.reserve index slots.toUInt64)
  | .release => onStack fun s => return ((), ← s.release)
  | .save kind slot => do
    let v ← pop
    onStack fun s => return ((), ← s.save kind slot v)
  | .restore kind slot => do
    push (← onStack fun s => return (← s.restore kind slot, s))
  | .suspend => throw .suspension

/-- Executes an instruction. -/
def instr (classes : ClassTable) : Instr → Exec Move
  | .label _ => return .next
  | .simple op => simple op
  | .const c => do push (.ofConstant c); return .next
  | .local op index => do onLocal op index; return .next
  | .inc index delta => do increment index delta; return .next
  | .jump op target => do
    if ← condition op then jumpTo target else return .next
  | .switch low default targets => do
    let offset := (← popInt).toInt - low.toInt
    jumpTo (if offset < 0 then default else targets[offset.toNat]?.getD default)
  | .field op member => do field op member; return .next
  | .invoke op member => return .call (← request op member)
  | .type op desc => do onType classes op desc; return .next
  | .frame op => do frame op; return .next

end Exec

/-- How an activation goes on. -/
inductive Progress where
  | going (a : Activation)
  | done (outcome : Except RunError (Option Value))
  /-- It waits for the answer to a call. -/
  | calling (a : Activation) (request : Call)

namespace RunError

/-- The exception for an error, if the error can be caught. -/
def exception? (e : RunError) (h : Heap) : Option (Heap × Value) :=
  match e with
  | .thrown v => some (h, v)
  | .arithmetic why => some (h.newException Names.arithmetic why.text)
  | .nullPointer => some (h.newException Names.nullPointer "null reference")
  | _ => none

end RunError

namespace Activation

/-- Goes on after an error: at the first handler that takes the exception, with nothing else on the
stack. -/
def raise (classes : ClassTable) (a : Activation) (e : RunError) (m : Memory) :
    Progress × Memory :=
  match e.exception? m.heap with
  | none => (.done (.error e), m)
  | some (heap, exception) =>
    let m := { m with heap }
    match classes.handlerFor? heap a.method a.pc exception with
    | some handler => (.going { a with stack := [exception], pc := handler.target }, m)
    | none => (.done (.error (.thrown exception)), m)

/-- Executes the instruction at the activation's place. -/
def step (classes : ClassTable) (a : Activation) (m : Memory) : Progress × Memory :=
  match a.method.method.code[a.pc]? with
  | none => (.done (.error (.code (.fellOff a.method.ref))), m)
  | some i =>
    match ((Exec.instr classes i).run a).run m with
    | (.error e, m) => a.raise classes e m
    | (.ok (.next, a'), m) => (.going { a' with pc := a.pc + 1 }, m)
    | (.ok (.goto pc, a'), m) => (.going { a' with pc }, m)
    | (.ok (.leave result, _), m) => (.done (.ok result), m)
    | (.ok (.call request, a'), m) => (.calling a' request, m)

/-- Goes on with the answer to a call: its result is pushed if the descriptor promises one. -/
def resume (classes : ClassTable) (a : Activation) (request : Call)
    (answer : Except RunError (Option Value)) (m : Memory) : Progress × Memory :=
  match answer with
  | .error e => a.raise classes e m
  | .ok result =>
    match Exec.methodType request.member.desc with
    | .error e => a.raise classes e m
    | .ok type =>
      match type.result, result with
      | none, _ => (.going { a with pc := a.pc + 1 }, m)
      | some _, some v => (.going { a with stack := v :: a.stack, pc := a.pc + 1 }, m)
      | some _, none => a.raise classes (.code (.noResult request.member)) m

end Activation

end Resumable
