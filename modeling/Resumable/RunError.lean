import Resumable.Value.Text
import Resumable.ClassDef.Verify

/-!
# What can go wrong at run time

`RunError.thrown` carries an exception of the program, among them the suspension signal. The others
are faults of the program or of its host; each says what was wrong, and `host` stands for a reason
that the host gives in words.
-/

namespace Resumable

/-- An operation that its subject is in no state for. -/
inductive StateFault where
  | noFrameEntered
  | cursorOutOfRange
  | slotOutside (slot : UInt32)
  | noCoroutine
  | notRunnable
  /-- An iterator is given an element while it still has one. -/
  | alreadyPending
  /-- An iterator is captured while it has an element. -/
  | elementPending
  | entryOutOfRange (index : UInt32)
  | host (text : String)
  deriving DecidableEq, Repr

def StateFault.text : StateFault → String
  | .noFrameEntered => "no frame entered"
  | .cursorOutOfRange => "frame cursor out of range"
  | .slotOutside slot => s!"slot {slot} outside reserved frame"
  | .noCoroutine => "no coroutine is running on this thread"
  | .notRunnable => "Not new or suspended"
  | .alreadyPending => "an element is already pending"
  | .elementPending => "an element is pending"
  | .entryOutOfRange index => s!"entry index {index} out of range"
  | .host text => text

/-- An argument outside its range. -/
inductive ArgumentFault where
  | emptyStack
  | tooManyArguments (method : MemberRef) (slots : UInt16) (count : Nat)
  | negativeTimeout
  | host (text : String)
  deriving DecidableEq, Repr

def ArgumentFault.text : ArgumentFault → String
  | .emptyStack => "stack size must be greater than zero"
  | .tooManyArguments m slots count =>
    s!"{m.owner}.{m.name}{m.desc} takes {slots} local slots but got {count} arguments"
  | .negativeTimeout => "timeout value is negative"
  | .host text => text

/-- A value of another type than wanted. -/
inductive TypeFault where
  | expected (what : String)
  | expectedFound (what found : String)
  | cannotSave (type : String) (kind : SlotKind)
  | cannotInvoke (method type : String)
  | host (text : String)
  deriving DecidableEq, Repr

def TypeFault.text : TypeFault → String
  | .expected what => s!"Expected {what}"
  | .expectedFound what found => s!"Expected {what}, found {found}"
  | .cannotSave type kind => s!"cannot save {type} into {kind.tag} slot"
  | .cannotInvoke method type => s!"cannot invoke {method} on {type}"
  | .host text => text

inductive ArithmeticFault where
  | byZero
  | host (text : String)
  deriving DecidableEq, Repr

def ArithmeticFault.text : ArithmeticFault → String
  | .byZero => "/ by zero"
  | .host text => text

/-- What is inconsistent in a snapshot. -/
inductive SnapshotFault where
  | buffers (prims refs : Nat)
  | top (offset size : Nat)
  | base (offset size : Nat)
  | reference (index : Nat)
  | host (text : String)
  deriving DecidableEq, Repr

def SnapshotFault.text : SnapshotFault → String
  | .buffers prims refs => s!"slot buffers hold {prims} and {refs} entries"
  | .top offset size => s!"top {offset} beyond {size} slots"
  | .base offset size => s!"frame base {offset} beyond {size} slots"
  | .reference index => s!"heap reference {index} out of range"
  | .host text => text

/-- A unit that cannot be loaded, or a descriptor that cannot be read. -/
inductive LoadFault where
  | unit (name : String) (cause : VerifyError)
  | descriptor (cause : DescriptorError)
  | host (text : String)
  deriving DecidableEq, Repr

def LoadFault.text : LoadFault → String
  | .unit name cause => s!"{name}: {cause.message}"
  | .descriptor cause => cause.message
  | .host text => text

/-- A limit that is reached, or an instruction that makes no sense. -/
inductive CodeFault where
  | tooDeep (limit : Nat)
  | fellOff (method : MemberRef)
  | undefinedLabel (label : Label)
  | localOutOfRange (index : UInt16)
  | needsOperands (op : Opcode)
  | notLocal (op : Opcode)
  | notJump (op : Opcode)
  | notField (op : Opcode)
  | notInvoke (op : Opcode)
  | notType (op : Opcode)
  | noResult (method : MemberRef)
  /-- No buffer can have so many slots. -/
  | tooManySlots (count : Nat)
  | host (text : String)
  deriving DecidableEq, Repr

def CodeFault.text : CodeFault → String
  | .tooDeep limit => s!"call depth exceeded {limit}"
  | .fellOff m => s!"execution fell off the end of {m.owner}.{m.name}{m.desc}"
  | .undefinedLabel label => s!"undefined label {label}"
  | .localOutOfRange index => s!"local {index} out of range"
  | .needsOperands op => s!"{op.mnemonic} requires operands"
  | .notLocal op => s!"{op.mnemonic} is not a local variable opcode"
  | .notJump op => s!"{op.mnemonic} is not a jump opcode"
  | .notField op => s!"{op.mnemonic} is not a field opcode"
  | .notInvoke op => s!"{op.mnemonic} is not an invoke opcode"
  | .notType op => s!"{op.mnemonic} is not a type opcode"
  | .noResult m => s!"{m.owner}.{m.name}{m.desc} returned no value"
  | .tooManySlots count => s!"no room for {count} slots"
  | .host text => text

/-- Why an execution ends without a result. -/
inductive RunError where
  | thrown (exception : Value)
  | invalidState (why : StateFault)
  /-- The suspend call was reached in a method that was not instrumented. -/
  | notInstrumented
  | illegalArgument (why : ArgumentFault)
  /-- An iterator has no more elements. -/
  | exhausted
  | noSuchClass (name : String)
  | noSuchMethod (name : String)
  | noSuchField (name : String)
  | nullPointer
  | type (why : TypeFault)
  | stackUnderflow
  | arithmetic (why : ArithmeticFault)
  | snapshot (why : SnapshotFault)
  | verify (why : LoadFault)
  | code (why : CodeFault)
  deriving DecidableEq, Repr

namespace RunError

/-- The suspension signal on its way out. -/
def suspension : RunError := .thrown Heap.signal

/-- The failures of a host, by number. From 16 on it is the signal. -/
def ofHost (number : Nat) : RunError :=
  let text := "host"
  match number with
  | 0 => .code (.host text)
  | 1 => .invalidState (.host text)
  | 2 => .notInstrumented
  | 3 => .illegalArgument (.host text)
  | 4 => .exhausted
  | 5 => .noSuchClass text
  | 6 => .noSuchMethod text
  | 7 => .noSuchField text
  | 8 => .nullPointer
  | 9 => .type (.host text)
  | 10 => .stackUnderflow
  | 11 => .arithmetic (.host text)
  | 12 => .snapshot (.host text)
  | 13 => .verify (.host text)
  | 14 => .thrown (.str text)
  | 15 => .thrown .null
  | _ => suspension

def message (h : Heap) : RunError → String
  | .thrown exception => s!"Uncaught exception: {h.display exception}"
  | .invalidState why => s!"Invalid state: {why.text}"
  | .notInstrumented =>
    "Not instrumented: the suspend primitive was called outside an instrumented method"
  | .illegalArgument why => s!"Illegal argument: {why.text}"
  | .exhausted => "No more elements"
  | .noSuchClass name => s!"No such class: {name}"
  | .noSuchMethod name => s!"No such method: {name}"
  | .noSuchField name => s!"No such field: {name}"
  | .nullPointer => "Null pointer exception"
  | .type why => s!"Type error: {why.text}"
  | .stackUnderflow => "Stack underflow"
  | .arithmetic why => s!"Arithmetic error: {why.text}"
  | .snapshot why => s!"Invalid snapshot: {why.text}"
  | .verify why => s!"Verification failed: {why.text}"
  | .code why => s!"Runtime error: {why.text}"

end RunError

end Resumable
