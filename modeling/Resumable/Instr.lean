import Resumable.Opcode
import Resumable.Decimal.Shortest
import Resumable.Text.Quoted

/-!
# Instructions

A method body is a list of instructions. Positions are named by labels that stand in the list
themselves, so code can be cut and spliced without any offset to repair.

An instruction carries its opcode beside its operands, and nothing in the type ties the two
together: `Instr.isPaired` says that the operands are those the opcode calls for. Only such
instructions can be read back from the binary form.
-/

namespace Resumable

/-- A symbolic position in a body. -/
structure Label where
  id : UInt32
  deriving DecidableEq, Repr, Inhabited, Hashable

instance : ToString Label where
  toString l := "L" ++ toString l.id

/-- A constant that an instruction pushes. Floating-point constants are kept as their bits. -/
inductive Constant where
  | int (value : Int32)
  | long (value : Int64)
  | float (bits : UInt32)
  | double (bits : UInt64)
  | str (value : String)
  deriving DecidableEq, Repr, Inhabited

/-- The opcode that pushes the constant. -/
def Constant.opcode : Constant → Opcode
  | .int _ => .iconst
  | .long _ => .lconst
  | .float _ => .fconst
  | .double _ => .dconst
  | .str _ => .sconst

/-- The category of a value, which decides the buffer of a coroutine frame that keeps it. -/
inductive SlotKind where
  | int
  | long
  | float
  | double
  | ref
  deriving DecidableEq, Repr, Inhabited

namespace SlotKind

def isReference : SlotKind → Bool
  | .ref => true
  | _ => false

/-- The byte that stands for the kind in the binary form. -/
def toByte : SlotKind → UInt8
  | .int => 0
  | .long => 1
  | .float => 2
  | .double => 3
  | .ref => 4

/-- The kind with the byte `b`, if one has it. -/
def ofByte? (b : UInt8) : Option SlotKind :=
  [int, long, float, double, ref].find? (·.toByte == b)

theorem ofByte?_toByte (k : SlotKind) : ofByte? k.toByte = some k := by
  cases k <;> rfl

theorem ofByte?_eq_some_iff {b : UInt8} {k : SlotKind} : ofByte? b = some k ↔ k.toByte = b :=
  ⟨fun h => by simpa using List.find?_some h, fun h => h ▸ ofByte?_toByte k⟩

/-- The name of the kind in listings. -/
def name : SlotKind → String
  | .int => "int"
  | .long => "long"
  | .float => "float"
  | .double => "double"
  | .ref => "ref"

/-- The name of the kind in the JSON form. -/
def tag : SlotKind → String
  | .int => "Int"
  | .long => "Long"
  | .float => "Float"
  | .double => "Double"
  | .ref => "Ref"

/-- The kind with the tag `t`, if one has it. -/
def ofTag? (t : String) : Option SlotKind :=
  [int, long, float, double, ref].find? (·.tag == t)

/-- The opcode that loads a local of this kind. -/
def loadOpcode : SlotKind → Opcode
  | .int => .iload
  | .long => .lload
  | .float => .fload
  | .double => .dload
  | .ref => .aload

/-- The opcode that stores into a local of this kind. -/
def storeOpcode : SlotKind → Opcode
  | .int => .istore
  | .long => .lstore
  | .float => .fstore
  | .double => .dstore
  | .ref => .astore

end SlotKind

/-- An operation on the frame of the active coroutine. -/
inductive FrameOp where
  /-- Enters a frame and pushes its resume index, 0 on first entry. -/
  | entry
  /-- Records a resume index and reserves slots. -/
  | reserve (entry slots : UInt32)
  /-- Leaves the current frame. -/
  | release
  /-- Pops a value into a slot. -/
  | save (kind : SlotKind) (slot : UInt32)
  /-- Pushes the value of a slot. -/
  | restore (kind : SlotKind) (slot : UInt32)
  /-- Raises the suspension signal. -/
  | suspend
  deriving DecidableEq, Repr, Inhabited

def FrameOp.opcode : FrameOp → Opcode
  | .entry => .frameEntry
  | .reserve .. => .frameReserve
  | .release => .frameRelease
  | .save .. => .frameSave
  | .restore .. => .frameRestore
  | .suspend => .frameSuspend

/-- A field or method as an instruction names it. -/
structure MemberRef where
  owner : String
  name : String
  desc : String
  deriving DecidableEq, Repr, Inhabited, Hashable

/-- One instruction of a body. -/
inductive Instr where
  /-- Marks a position. -/
  | label (label : Label)
  /-- Any operation without operands. -/
  | simple (op : Opcode)
  /-- Pushes a constant. -/
  | const (value : Constant)
  /-- Loads or stores a local. -/
  | local (op : Opcode) (index : UInt16)
  /-- Adds `delta` to an int local. -/
  | inc (index : UInt16) (delta : Int32)
  | jump (op : Opcode) (target : Label)
  /-- Pops a key and jumps to `targets[key - low]`, or to `default` outside that range. -/
  | switch (low : Int32) (default : Label) (targets : List Label)
  | field (op : Opcode) (member : MemberRef)
  | invoke (op : Opcode) (member : MemberRef)
  /-- Allocates, casts or tests; `desc` is a type name, or an element descriptor for arrays. -/
  | type (op : Opcode) (desc : String)
  | frame (op : FrameOp)
  deriving DecidableEq, Repr, Inhabited

namespace Instr

def opcode : Instr → Opcode
  | .label _ => .label
  | .simple op => op
  | .const c => c.opcode
  | .local op _ => op
  | .inc _ _ => .iinc
  | .jump op _ => op
  | .switch .. => .tableswitch
  | .field op _ => op
  | .invoke op _ => op
  | .type op _ => op
  | .frame f => f.opcode

def isLabel : Instr → Bool
  | .label _ => true
  | _ => false

/-- The labels to which the instruction may transfer control. -/
def branchTargets : Instr → List Label
  | .jump _ target => [target]
  | .switch _ default targets => default :: targets
  | _ => []

/-- The local that the instruction reads or writes. -/
def localIndex? : Instr → Option UInt16
  | .local _ index => some index
  | .inc index _ => some index
  | _ => none

end Instr

/-! ### Opcodes and their operands -/

/-- What follows an opcode. -/
inductive Operands where
  | none
  | label
  | int
  | long
  | float
  | double
  | string
  | local
  | increment
  | target
  | switch
  | field
  | method
  | type
  | frame
  deriving DecidableEq, Repr

/-- The operands that an opcode calls for. -/
def Opcode.operands (op : Opcode) : Operands :=
  match op with
  | .label => .label
  | .iconst => .int
  | .lconst => .long
  | .fconst => .float
  | .dconst => .double
  | .sconst => .string
  | .iload | .lload | .fload | .dload | .aload
  | .istore | .lstore | .fstore | .dstore | .astore => .local
  | .iinc => .increment
  | .tableswitch => .switch
  | .getfield | .putfield | .getstatic | .putstatic => .field
  | .new | .checkcast | .instanceOf | .newarray => .type
  | .frameEntry | .frameReserve | .frameRelease | .frameSave | .frameRestore | .frameSuspend =>
    .frame
  | _ =>
    if op.isJump then .target
    else if op.isInvoke then .method
    else .none

/-- The operands that an instruction carries. -/
def Instr.operands : Instr → Operands
  | .label _ => .label
  | .simple _ => .none
  | .const (.int _) => .int
  | .const (.long _) => .long
  | .const (.float _) => .float
  | .const (.double _) => .double
  | .const (.str _) => .string
  | .local .. => .local
  | .inc .. => .increment
  | .jump .. => .target
  | .switch .. => .switch
  | .field .. => .field
  | .invoke .. => .method
  | .type .. => .type
  | .frame _ => .frame

/-- The instruction carries the operands that its opcode calls for. -/
def Instr.isPaired (i : Instr) : Bool :=
  i.opcode.operands == i.operands

/-! ### Text -/

/-- The constant as listings show it, without its opcode. -/
def Constant.render : Constant → String
  | .int v => toString v
  | .long v => toString v
  | .float bits => Decimal.renderSingle .plain bits
  | .double bits => Decimal.renderDouble .plain bits
  | .str s => Text.quoted s

/-- The line of a listing for one instruction. -/
def Instr.render : Instr → String
  | .label l => toString l ++ ":"
  | .simple op => op.mnemonic
  | .const c => c.opcode.mnemonic ++ " " ++ c.render
  | .local op index => op.mnemonic ++ " " ++ toString index
  | .inc index delta => "iinc " ++ toString index ++ " " ++ toString delta
  | .jump op target => op.mnemonic ++ " " ++ toString target
  | .switch low default targets =>
    "tableswitch " ++ toString low ++ " default " ++ toString default ++ " [" ++
      ", ".intercalate (targets.map toString) ++ "]"
  | .field op m => op.mnemonic ++ " " ++ m.owner ++ "." ++ m.name ++ ":" ++ m.desc
  | .invoke op m => op.mnemonic ++ " " ++ m.owner ++ "." ++ m.name ++ m.desc
  | .type op desc => op.mnemonic ++ " " ++ desc
  | .frame (.reserve entry slots) =>
    "frame.reserve " ++ toString entry ++ " " ++ toString slots
  | .frame (.save kind slot) => "frame.save " ++ kind.name ++ " " ++ toString slot
  | .frame (.restore kind slot) => "frame.restore " ++ kind.name ++ " " ++ toString slot
  | .frame f => f.opcode.mnemonic

instance : ToString Instr where
  toString := Instr.render

end Resumable
