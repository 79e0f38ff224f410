import Resumable.Descriptor
import Resumable.Instr
import Resumable.Names

/-!
# Abstract frames

What is known about the locals and the operand stack in front of an instruction. `Frame.step` is the
transfer function: it runs one instruction on what is known and fails where no activation could go
on, such as on an empty operand stack.

An object under construction is tracked from its allocation to the call of its constructor, because
it cannot be kept across a suspension: the plan has to find the instructions that made it.
-/

namespace Resumable

/-- What is known about a local or an operand. -/
inductive FlowValue where
  /-- Nothing: never written, or written differently on joining paths. -/
  | unknown
  | int
  | long
  | float
  | double
  | null
  /-- A reference to the class, or to the array type if the name is a descriptor. -/
  | reference (type : String)
  /-- An object under construction, allocated at `alloc`; `insn` is the instruction that put this
  copy in its place, and `dupped` tells that it is a duplicate. -/
  | fresh (type : String) (alloc insn : Nat) (dupped : Bool)
  deriving DecidableEq, Repr, Inhabited

namespace FlowValue

def ofFieldType : FieldType → FlowValue
  | .int => .int
  | .long => .long
  | .float => .float
  | .double => .double
  | type => .reference type.internalName

/-- The value that a descriptor promises. -/
def ofDescriptor? (desc : String) : Option FlowValue :=
  match FieldType.parse desc with
  | .ok type => some (ofFieldType type)
  | .error _ => none

/-- The kind of slot that keeps the value; null need not be kept, the rest cannot be. -/
def slotKind? : FlowValue → Option SlotKind
  | .int => some .int
  | .long => some .long
  | .float => some .float
  | .double => some .double
  | .reference _ => some .ref
  | .unknown | .null | .fresh .. => none

def ofSlotKind : SlotKind → FlowValue
  | .int => .int
  | .long => .long
  | .float => .float
  | .double => .double
  | .ref => .reference Names.object

def isFresh : FlowValue → Bool
  | .fresh .. => true
  | _ => false

def isReference : FlowValue → Bool
  | .null | .reference _ | .fresh .. => true
  | _ => false

/-- The element type that the name of an array type promises, if it is one. -/
def elementDescriptor? (type : String) : Option String :=
  match type.toList with
  | '[' :: element => some (String.ofList element)
  | _ => none

/-- What an element of the array is known to be. -/
def element : FlowValue → FlowValue
  | .reference type => ((elementDescriptor? type).bind ofDescriptor?).getD (.reference Names.object)
  | _ => .reference Names.object

def render : FlowValue → String
  | .unknown => "."
  | .int => "I"
  | .long => "J"
  | .float => "F"
  | .double => "D"
  | .null => "null"
  | .reference type => "L" ++ type ++ ";"
  | .fresh type _ _ dupped => "new " ++ type ++ if dupped then " (dup)" else ""

end FlowValue

/-- Why an instruction cannot run on a frame, or two frames cannot be joined. -/
inductive FlowError where
  | underflow
  | localOutOfRange (index : UInt16)
  | heightsDiffer (a b : Nat)
  | fieldDescriptor (desc : String)
  | methodDescriptor (cause : DescriptorError)
  | convertsReference (op : Opcode)
  /-- An opcode that wants operands stands alone. -/
  | bareOpcode (op : Opcode)
  | undefinedLabel (label : Label)
  | fallsOffEnd
  | noReceiverLocal
  | tooFewLocals
  /-- The value at this operand stack position cannot be kept across a suspension. -/
  | unknownOperand (position : Nat)
  /-- The number of a live local does not fit into an instruction. -/
  | localOverflow
  /-- The slots of a buffer cannot be counted any further. -/
  | slotOverflow
  /-- The frames have not settled within the number of steps that a hierarchy without cycles
  allows. -/
  | unsettled
  deriving DecidableEq, Repr

def FlowError.message : FlowError → String
  | .underflow => "operand stack underflow"
  | .localOutOfRange index => s!"local {index} out of range"
  | .heightsDiffer a b => s!"incompatible stack heights {a} and {b}"
  | .fieldDescriptor desc => s!"invalid field descriptor {desc}"
  | .methodDescriptor cause => cause.message
  | .convertsReference op => s!"{op} applied to a reference"
  | .bareOpcode op => s!"unexpected operand-free opcode {op}"
  | .undefinedLabel label => s!"undefined label {label}"
  | .fallsOffEnd => "execution falls off the end"
  | .noReceiverLocal => "no local slot for the receiver"
  | .tooFewLocals => "max_locals too small for the parameters"
  | .unknownOperand position => s!"unknown value at operand stack position {position}"
  | .localOverflow => "local index overflow"
  | .slotOverflow => "attempt to add with overflow"
  | .unsettled => "the class hierarchy has a cycle"

/-- What is known in front of an instruction. The top of the operand stack comes first. -/
structure Frame where
  locals : List FlowValue
  stack : List FlowValue
  deriving DecidableEq, Repr, Inhabited

namespace Frame

/-- Nothing is known about the locals, and the operand stack is empty. -/
def blank (maxLocals : Nat) : Frame := ⟨List.replicate maxLocals .unknown, []⟩

def push (f : Frame) (v : FlowValue) : Frame := { f with stack := v :: f.stack }

/-- Takes the top of the operand stack. -/
def pop (f : Frame) : Except FlowError (FlowValue × Frame) :=
  match f.stack with
  | v :: rest => .ok (v, { f with stack := rest })
  | [] => .error .underflow

/-- Drops `count` operands. -/
def drop (f : Frame) (count : Nat) : Except FlowError Frame :=
  if f.stack.length < count then .error .underflow
  else .ok { f with stack := f.stack.drop count }

def peek (f : Frame) : Except FlowError FlowValue :=
  match f.stack with
  | v :: _ => .ok v
  | [] => .error .underflow

def getLocal (f : Frame) (index : UInt16) : Except FlowError FlowValue :=
  match f.locals[index.toNat]? with
  | some v => .ok v
  | none => .error (.localOutOfRange index)

def setLocal (f : Frame) (index : UInt16) (v : FlowValue) : Except FlowError Frame :=
  if index.toNat < f.locals.length then .ok { f with locals := f.locals.set index.toNat v }
  else .error (.localOutOfRange index)

/-- The constructor of the object allocated at `alloc` has been called. -/
def settleFresh (f : Frame) (alloc : Nat) (type : String) : Frame :=
  let settle (v : FlowValue) : FlowValue :=
    match v with
    | .fresh _ alloc' _ _ => if alloc' = alloc then .reference type else v
    | _ => v
  ⟨f.locals.map settle, f.stack.map settle⟩

/-- Replaces `count` operands by one. -/
def replace (f : Frame) (count : Nat) (v : FlowValue) : Except FlowError Frame := do
  return (← f.drop count).push v

/-- Pops a primitive and pushes its conversion. -/
def convert (f : Frame) (target : FlowValue) (op : Opcode) : Except FlowError Frame := do
  let (v, f) ← f.pop
  if v.isReference then throw (.convertsReference op)
  return f.push target

/-- The top of the operand stack twice. The copy of an object under construction remembers the
instruction that made it. -/
def duplicate (f : Frame) (index : Nat) : Except FlowError Frame := do
  match ← f.peek with
  | .fresh type alloc _ false => return f.push (.fresh type alloc index true)
  | v => return f.push v

/-- The effect of an operation without operands, which stands at `index`. -/
def stepSimple (f : Frame) (index : Nat) (op : Opcode) : Except FlowError Frame :=
  match op with
  | .nop | .ret => .ok f
  | .aconstNull => .ok (f.push .null)
  | .pop => f.drop 1
  | .dup => f.duplicate index
  | .dupX1 => do
    let (v₁, f) ← f.pop
    let (v₂, f) ← f.pop
    return ((f.push v₁).push v₂).push v₁
  | .swap => do
    let (v₁, f) ← f.pop
    let (v₂, f) ← f.pop
    return (f.push v₁).push v₂
  | .iadd | .isub | .imul | .idiv | .irem => f.replace 2 .int
  | .ladd | .lsub | .lmul | .ldiv | .lrem => f.replace 2 .long
  | .fadd | .fsub | .fmul | .fdiv => f.replace 2 .float
  | .dadd | .dsub | .dmul | .ddiv => f.replace 2 .double
  | .lcmp | .fcmp | .dcmp => f.replace 2 .int
  | .ineg | .lneg | .fneg | .dneg => do
    let (v, f) ← f.pop
    return f.push v
  | .i2l | .f2d | .d2l => f.convert .long op
  | .i2f | .l2f => f.convert .float op
  | .i2d | .l2d => f.convert .double op
  | .l2i | .f2i | .d2i => f.convert .int op
  | .ireturn | .lreturn | .freturn | .dreturn | .areturn | .athrow
  | .monitorenter | .monitorexit => f.drop 1
  | .arraylength => f.replace 1 .int
  | .aaload => do
    let (_, f) ← f.pop
    let (array, f) ← f.pop
    return f.push array.element
  | .iaload => f.replace 2 .int
  | .aastore | .iastore => f.drop 3
  | _ => .error (.bareOpcode op)

/-- The effect of a call: arguments and receiver are popped and the result is pushed. A call of a
constructor ends the construction of its receiver. -/
def stepInvoke (f : Frame) (op : Opcode) (m : MemberRef) : Except FlowError Frame := do
  let type ← (MethodType.parse m.desc).mapError .methodDescriptor
  let f ← f.drop type.arity
  let f ←
    if op = .invokestatic then pure f
    else do
      let (receiver, f) ← f.pop
      match receiver with
      | .fresh name alloc _ _ =>
        if op = .invokespecial ∧ m.name = Names.constructor then pure (f.settleFresh alloc name)
        else pure f
      | _ => pure f
  match type.result with
  | some result => return f.push (.ofFieldType result)
  | none => return f

/-- The effect of the instruction at `index`. -/
def step (f : Frame) (index : Nat) (i : Instr) : Except FlowError Frame :=
  match i with
  | .label _ => .ok f
  | .simple op => f.stepSimple index op
  | .const (.int _) => .ok (f.push .int)
  | .const (.long _) => .ok (f.push .long)
  | .const (.float _) => .ok (f.push .float)
  | .const (.double _) => .ok (f.push .double)
  | .const (.str _) => .ok (f.push (.reference Names.string))
  | .local op index =>
    match op with
    | .iload | .lload | .fload | .dload | .aload => do return f.push (← f.getLocal index)
    | _ => do
      let (v, f) ← f.pop
      f.setLocal index v
  | .inc index _ => f.setLocal index .int
  | .jump op _ =>
    match op with
    | .goto => .ok f
    | .ifIcmpeq | .ifIcmpne | .ifIcmplt | .ifIcmpge | .ifIcmpgt | .ifIcmple
    | .ifAcmpeq | .ifAcmpne => f.drop 2
    | _ => f.drop 1
  | .switch .. => f.drop 1
  | .field op m =>
    match FlowValue.ofDescriptor? m.desc with
    | none => .error (.fieldDescriptor m.desc)
    | some v =>
      match op with
      | .getfield => f.replace 1 v
      | .putfield => f.drop 2
      | .getstatic => .ok (f.push v)
      | _ => f.drop 1
  | .invoke op m => f.stepInvoke op m
  | .type op desc =>
    match op with
    | .new => .ok (f.push (.fresh desc index index false))
    | .checkcast => do
      let (v, f) ← f.pop
      return f.push (if v = .null then .null else .reference desc)
    | .instanceOf => f.replace 1 .int
    | _ => f.replace 1 (.reference ("[" ++ desc))
  | .frame .entry => .ok (f.push .int)
  | .frame (.reserve ..) | .frame .release | .frame .suspend => .ok f
  | .frame (.save ..) => f.drop 1
  | .frame (.restore kind _) => .ok (f.push (.ofSlotKind kind))

/-- The frame as diagnostics show it: locals in brackets, the operand stack from its bottom in
braces. -/
def render (f : Frame) : String :=
  "[" ++ " ".intercalate (f.locals.map FlowValue.render) ++ "] \x7b" ++
    " ".intercalate (f.stack.reverse.map FlowValue.render) ++ "\x7d"

end Frame

end Resumable
