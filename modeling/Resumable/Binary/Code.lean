import Resumable.Binary.Reader

/-!
# Code as bytes

An instruction is the byte of its opcode and then its operands. Writing asks only the operands that
are there; reading asks the opcode which operands follow, so exactly the paired instructions come
back.
-/

namespace Resumable.Binary

def ofMember (m : MemberRef) : List UInt8 := ofString m.owner ++ ofString m.name ++ ofString m.desc

/-- The operands of an instruction. -/
def ofOperands : Instr → List UInt8
  | .label l => ofUInt32 l.id
  | .simple _ => []
  | .const (.int v) => ofInt32 v
  | .const (.long v) => ofInt64 v
  | .const (.float bits) => ofUInt32 bits
  | .const (.double bits) => ofUInt64 bits
  | .const (.str s) => ofString s
  | .local _ index => ofUInt16 index
  | .inc index delta => ofUInt16 index ++ ofInt32 delta
  | .jump _ target => ofUInt32 target.id
  | .switch low default targets =>
    ofInt32 low ++ ofUInt32 default.id ++ ofLength targets.length ++
      targets.flatMap fun l => ofUInt32 l.id
  | .field _ m | .invoke _ m => ofMember m
  | .type _ desc => ofString desc
  | .frame (.reserve entry slots) => ofUInt32 entry ++ ofUInt32 slots
  | .frame (.save kind slot) | .frame (.restore kind slot) => kind.toByte :: ofUInt32 slot
  | .frame _ => []

/-- An instruction as bytes. -/
def ofInstr (i : Instr) : List UInt8 := i.opcode.toByte :: ofOperands i

/-- Code as bytes. -/
def ofCode (code : List Instr) : List UInt8 := code.flatMap ofInstr

namespace Reader

def member : Reader MemberRef :=
  return ⟨← string, ← string, ← string⟩

/-- Takes the operands of a frame operation. -/
def frameOp (op : Opcode) : Reader FrameOp :=
  match op with
  | .frameReserve => return .reserve (← uint32) (← uint32)
  | .frameSave => return .save (← slotKind) (← uint32)
  | .frameRestore => return .restore (← slotKind) (← uint32)
  | .frameRelease => return .release
  | .frameSuspend => return .suspend
  | _ => return .entry

/-- Takes the operands that an opcode calls for. -/
def operandsOf (op : Opcode) : Reader Instr :=
  match op.operands with
  | .none => return .simple op
  | .label => return .label (← label)
  | .int => return .const (.int (← int32))
  | .long => return .const (.long (← int64))
  | .float => return .const (.float (← uint32))
  | .double => return .const (.double (← uint64))
  | .string => return .const (.str (← string))
  | .local => return .local op (← uint16)
  | .increment => return .inc (← uint16) (← int32)
  | .target => return .jump op (← label)
  | .switch => return .switch (← int32) (← label) (← list label)
  | .field => return .field op (← member)
  | .method => return .invoke op (← member)
  | .type => return .type op (← string)
  | .frame => return .frame (← frameOp op)

def instr : Reader Instr := do operandsOf (← opcode)

/-- Takes instructions until no byte is left. Each takes at least one byte, so as many steps as
there are bytes are enough. -/
def instrs : (steps : Nat) → Reader (List Instr)
  | 0 => return []
  | steps + 1 => do
    if (← get).isAtEnd then return [] else return (← instr) :: (← instrs steps)

end Reader

/-- The code that `bytes` hold, from their start to their end. -/
def toCode (bytes : List UInt8) : Except DecodeError (List Instr) :=
  (Reader.instrs bytes.length).runOn bytes

end Resumable.Binary
