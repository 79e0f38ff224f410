/-!
# Opcodes

Every operation of the instruction set has one byte in the binary form, one mnemonic in listings
and one tag in the JSON form. The three spellings are tables over `Opcode`, and each is injective:
`ofByte?_eq_some_iff` and `ofTag?_eq_some_iff` say that reading a spelling inverts writing it.
-/

namespace Resumable

/-- An operation of the instruction set, without its operands. -/
inductive Opcode where
  -- Constants.
  | nop | aconstNull | iconst | lconst | fconst | dconst | sconst
  -- Local variables.
  | iload | lload | fload | dload | aload | istore | lstore | fstore | dstore | astore | iinc
  -- Operand stack.
  | pop | dup | dupX1 | swap
  -- Int and long arithmetic.
  | iadd | isub | imul | idiv | irem | ineg | ladd | lsub | lmul | ldiv | lrem | lneg | lcmp
  -- Float and double arithmetic.
  | fadd | fsub | fmul | fdiv | fneg | fcmp | dadd | dsub | dmul | ddiv | dneg | dcmp
  -- Conversions.
  | i2l | i2f | i2d | l2i | l2f | l2d | f2i | f2d | d2i | d2l
  -- Control flow.
  | ifeq | ifne | iflt | ifge | ifgt | ifle | ifIcmpeq | ifIcmpne | ifIcmplt | ifIcmpge
  | ifIcmpgt | ifIcmple | ifAcmpeq | ifAcmpne | ifnull | ifnonnull | goto | tableswitch
  -- Returns.
  | ireturn | lreturn | freturn | dreturn | areturn | ret
  -- Fields.
  | getfield | putfield | getstatic | putstatic
  -- Calls.
  | invokevirtual | invokespecial | invokestatic | invokeinterface
  -- Objects, exceptions and monitors.
  | new | checkcast | instanceOf | athrow | monitorenter | monitorexit
  -- Arrays.
  | newarray | arraylength | aaload | aastore | iaload | iastore
  -- Coroutine frames: placed by the instrumenter, never by a source program.
  | frameEntry | frameReserve | frameRelease | frameSave | frameRestore | frameSuspend
  -- A position in the code, not an operation.
  | label
  deriving DecidableEq, Repr, Inhabited

namespace Opcode

/-- The byte that stands for the opcode in the binary form. -/
def toByte : Opcode → UInt8
  | .nop => 0x00
  | .aconstNull => 0x01
  | .iconst => 0x02
  | .lconst => 0x03
  | .fconst => 0x04
  | .dconst => 0x05
  | .sconst => 0x06
  | .iload => 0x10
  | .lload => 0x11
  | .fload => 0x12
  | .dload => 0x13
  | .aload => 0x14
  | .istore => 0x15
  | .lstore => 0x16
  | .fstore => 0x17
  | .dstore => 0x18
  | .astore => 0x19
  | .iinc => 0x1A
  | .pop => 0x20
  | .dup => 0x21
  | .dupX1 => 0x22
  | .swap => 0x23
  | .iadd => 0x30
  | .isub => 0x31
  | .imul => 0x32
  | .idiv => 0x33
  | .irem => 0x34
  | .ineg => 0x35
  | .ladd => 0x38
  | .lsub => 0x39
  | .lmul => 0x3A
  | .ldiv => 0x3B
  | .lrem => 0x3C
  | .lneg => 0x3D
  | .lcmp => 0x3E
  | .fadd => 0x40
  | .fsub => 0x41
  | .fmul => 0x42
  | .fdiv => 0x43
  | .fneg => 0x44
  | .fcmp => 0x45
  | .dadd => 0x48
  | .dsub => 0x49
  | .dmul => 0x4A
  | .ddiv => 0x4B
  | .dneg => 0x4C
  | .dcmp => 0x4D
  | .i2l => 0x50
  | .i2f => 0x51
  | .i2d => 0x52
  | .l2i => 0x53
  | .l2f => 0x54
  | .l2d => 0x55
  | .f2i => 0x56
  | .f2d => 0x57
  | .d2i => 0x58
  | .d2l => 0x59
  | .ifeq => 0x60
  | .ifne => 0x61
  | .iflt => 0x62
  | .ifge => 0x63
  | .ifgt => 0x64
  | .ifle => 0x65
  | .ifIcmpeq => 0x66
  | .ifIcmpne => 0x67
  | .ifIcmplt => 0x68
  | .ifIcmpge => 0x69
  | .ifIcmpgt => 0x6A
  | .ifIcmple => 0x6B
  | .ifAcmpeq => 0x6C
  | .ifAcmpne => 0x6D
  | .ifnull => 0x6E
  | .ifnonnull => 0x6F
  | .goto => 0x70
  | .tableswitch => 0x71
  | .ireturn => 0x78
  | .lreturn => 0x79
  | .freturn => 0x7A
  | .dreturn => 0x7B
  | .areturn => 0x7C
  | .ret => 0x7D
  | .getfield => 0x80
  | .putfield => 0x81
  | .getstatic => 0x82
  | .putstatic => 0x83
  | .invokevirtual => 0x88
  | .invokespecial => 0x89
  | .invokestatic => 0x8A
  | .invokeinterface => 0x8B
  | .new => 0x90
  | .checkcast => 0x91
  | .instanceOf => 0x92
  | .athrow => 0x93
  | .monitorenter => 0x94
  | .monitorexit => 0x95
  | .newarray => 0xA0
  | .arraylength => 0xA1
  | .aaload => 0xA2
  | .aastore => 0xA3
  | .iaload => 0xA4
  | .iastore => 0xA5
  | .frameEntry => 0xE0
  | .frameReserve => 0xE1
  | .frameRelease => 0xE2
  | .frameSave => 0xE3
  | .frameRestore => 0xE4
  | .frameSuspend => 0xE5
  | .label => 0xFE

/-- The name of the opcode in listings and messages. -/
def mnemonic : Opcode → String
  | .nop => "nop"
  | .aconstNull => "aconst_null"
  | .iconst => "iconst"
  | .lconst => "lconst"
  | .fconst => "fconst"
  | .dconst => "dconst"
  | .sconst => "sconst"
  | .iload => "iload"
  | .lload => "lload"
  | .fload => "fload"
  | .dload => "dload"
  | .aload => "aload"
  | .istore => "istore"
  | .lstore => "lstore"
  | .fstore => "fstore"
  | .dstore => "dstore"
  | .astore => "astore"
  | .iinc => "iinc"
  | .pop => "pop"
  | .dup => "dup"
  | .dupX1 => "dup_x1"
  | .swap => "swap"
  | .iadd => "iadd"
  | .isub => "isub"
  | .imul => "imul"
  | .idiv => "idiv"
  | .irem => "irem"
  | .ineg => "ineg"
  | .ladd => "ladd"
  | .lsub => "lsub"
  | .lmul => "lmul"
  | .ldiv => "ldiv"
  | .lrem => "lrem"
  | .lneg => "lneg"
  | .lcmp => "lcmp"
  | .fadd => "fadd"
  | .fsub => "fsub"
  | .fmul => "fmul"
  | .fdiv => "fdiv"
  | .fneg => "fneg"
  | .fcmp => "fcmp"
  | .dadd => "dadd"
  | .dsub => "dsub"
  | .dmul => "dmul"
  | .ddiv => "ddiv"
  | .dneg => "dneg"
  | .dcmp => "dcmp"
  | .i2l => "i2l"
  | .i2f => "i2f"
  | .i2d => "i2d"
  | .l2i => "l2i"
  | .l2f => "l2f"
  | .l2d => "l2d"
  | .f2i => "f2i"
  | .f2d => "f2d"
  | .d2i => "d2i"
  | .d2l => "d2l"
  | .ifeq => "ifeq"
  | .ifne => "ifne"
  | .iflt => "iflt"
  | .ifge => "ifge"
  | .ifgt => "ifgt"
  | .ifle => "ifle"
  | .ifIcmpeq => "if_icmpeq"
  | .ifIcmpne => "if_icmpne"
  | .ifIcmplt => "if_icmplt"
  | .ifIcmpge => "if_icmpge"
  | .ifIcmpgt => "if_icmpgt"
  | .ifIcmple => "if_icmple"
  | .ifAcmpeq => "if_acmpeq"
  | .ifAcmpne => "if_acmpne"
  | .ifnull => "ifnull"
  | .ifnonnull => "ifnonnull"
  | .goto => "goto"
  | .tableswitch => "tableswitch"
  | .ireturn => "ireturn"
  | .lreturn => "lreturn"
  | .freturn => "freturn"
  | .dreturn => "dreturn"
  | .areturn => "areturn"
  | .ret => "return"
  | .getfield => "getfield"
  | .putfield => "putfield"
  | .getstatic => "getstatic"
  | .putstatic => "putstatic"
  | .invokevirtual => "invokevirtual"
  | .invokespecial => "invokespecial"
  | .invokestatic => "invokestatic"
  | .invokeinterface => "invokeinterface"
  | .new => "new"
  | .checkcast => "checkcast"
  | .instanceOf => "instanceof"
  | .athrow => "athrow"
  | .monitorenter => "monitorenter"
  | .monitorexit => "monitorexit"
  | .newarray => "newarray"
  | .arraylength => "arraylength"
  | .aaload => "aaload"
  | .aastore => "aastore"
  | .iaload => "iaload"
  | .iastore => "iastore"
  | .frameEntry => "frame.entry"
  | .frameReserve => "frame.reserve"
  | .frameRelease => "frame.release"
  | .frameSave => "frame.save"
  | .frameRestore => "frame.restore"
  | .frameSuspend => "frame.suspend"
  | .label => "label"

/-- The name of the opcode in the JSON form. -/
def tag : Opcode → String
  | .nop => "Nop"
  | .aconstNull => "AConstNull"
  | .iconst => "IConst"
  | .lconst => "LConst"
  | .fconst => "FConst"
  | .dconst => "DConst"
  | .sconst => "SConst"
  | .iload => "ILoad"
  | .lload => "LLoad"
  | .fload => "FLoad"
  | .dload => "DLoad"
  | .aload => "ALoad"
  | .istore => "IStore"
  | .lstore => "LStore"
  | .fstore => "FStore"
  | .dstore => "DStore"
  | .astore => "AStore"
  | .iinc => "IInc"
  | .pop => "Pop"
  | .dup => "Dup"
  | .dupX1 => "DupX1"
  | .swap => "Swap"
  | .iadd => "IAdd"
  | .isub => "ISub"
  | .imul => "IMul"
  | .idiv => "IDiv"
  | .irem => "IRem"
  | .ineg => "INeg"
  | .ladd => "LAdd"
  | .lsub => "LSub"
  | .lmul => "LMul"
  | .ldiv => "LDiv"
  | .lrem => "LRem"
  | .lneg => "LNeg"
  | .lcmp => "LCmp"
  | .fadd => "FAdd"
  | .fsub => "FSub"
  | .fmul => "FMul"
  | .fdiv => "FDiv"
  | .fneg => "FNeg"
  | .fcmp => "FCmp"
  | .dadd => "DAdd"
  | .dsub => "DSub"
  | .dmul => "DMul"
  | .ddiv => "DDiv"
  | .dneg => "DNeg"
  | .dcmp => "DCmp"
  | .i2l => "I2L"
  | .i2f => "I2F"
  | .i2d => "I2D"
  | .l2i => "L2I"
  | .l2f => "L2F"
  | .l2d => "L2D"
  | .f2i => "F2I"
  | .f2d => "F2D"
  | .d2i => "D2I"
  | .d2l => "D2L"
  | .ifeq => "IfEq"
  | .ifne => "IfNe"
  | .iflt => "IfLt"
  | .ifge => "IfGe"
  | .ifgt => "IfGt"
  | .ifle => "IfLe"
  | .ifIcmpeq => "IfICmpEq"
  | .ifIcmpne => "IfICmpNe"
  | .ifIcmplt => "IfICmpLt"
  | .ifIcmpge => "IfICmpGe"
  | .ifIcmpgt => "IfICmpGt"
  | .ifIcmple => "IfICmpLe"
  | .ifAcmpeq => "IfACmpEq"
  | .ifAcmpne => "IfACmpNe"
  | .ifnull => "IfNull"
  | .ifnonnull => "IfNonNull"
  | .goto => "Goto"
  | .tableswitch => "TableSwitch"
  | .ireturn => "IReturn"
  | .lreturn => "LReturn"
  | .freturn => "FReturn"
  | .dreturn => "DReturn"
  | .areturn => "AReturn"
  | .ret => "Return"
  | .getfield => "GetField"
  | .putfield => "PutField"
  | .getstatic => "GetStatic"
  | .putstatic => "PutStatic"
  | .invokevirtual => "InvokeVirtual"
  | .invokespecial => "InvokeSpecial"
  | .invokestatic => "InvokeStatic"
  | .invokeinterface => "InvokeInterface"
  | .new => "New"
  | .checkcast => "CheckCast"
  | .instanceOf => "InstanceOf"
  | .athrow => "AThrow"
  | .monitorenter => "MonitorEnter"
  | .monitorexit => "MonitorExit"
  | .newarray => "NewArray"
  | .arraylength => "ArrayLength"
  | .aaload => "AALoad"
  | .aastore => "AAStore"
  | .iaload => "IALoad"
  | .iastore => "IAStore"
  | .frameEntry => "FrameEntry"
  | .frameReserve => "FrameReserve"
  | .frameRelease => "FrameRelease"
  | .frameSave => "FrameSave"
  | .frameRestore => "FrameRestore"
  | .frameSuspend => "FrameSuspend"
  | .label => "Label"

/-- Every opcode, in the order of their bytes. -/
def all : List Opcode :=
  [.nop, .aconstNull, .iconst, .lconst, .fconst, .dconst, .sconst, .iload, .lload, .fload,
   .dload, .aload, .istore, .lstore, .fstore, .dstore, .astore, .iinc, .pop, .dup,
   .dupX1, .swap, .iadd, .isub, .imul, .idiv, .irem, .ineg, .ladd, .lsub, .lmul, .ldiv,
   .lrem, .lneg, .lcmp, .fadd, .fsub, .fmul, .fdiv, .fneg, .fcmp, .dadd, .dsub, .dmul,
   .ddiv, .dneg, .dcmp, .i2l, .i2f, .i2d, .l2i, .l2f, .l2d, .f2i, .f2d, .d2i, .d2l,
   .ifeq, .ifne, .iflt, .ifge, .ifgt, .ifle, .ifIcmpeq, .ifIcmpne, .ifIcmplt, .ifIcmpge,
   .ifIcmpgt, .ifIcmple, .ifAcmpeq, .ifAcmpne, .ifnull, .ifnonnull, .goto, .tableswitch,
   .ireturn, .lreturn, .freturn, .dreturn, .areturn, .ret, .getfield, .putfield,
   .getstatic, .putstatic, .invokevirtual, .invokespecial, .invokestatic,
   .invokeinterface, .new, .checkcast, .instanceOf, .athrow, .monitorenter, .monitorexit,
   .newarray, .arraylength, .aaload, .aastore, .iaload, .iastore, .frameEntry,
   .frameReserve, .frameRelease, .frameSave, .frameRestore, .frameSuspend, .label]

instance : ToString Opcode where
  toString := mnemonic

/-! ### Reading the spellings back -/

/-- The opcode with the byte `b`, if one has it. -/
def ofByte? (b : UInt8) : Option Opcode :=
  all.find? (·.toByte == b)

/-- The opcode with the tag `t`, if one has it. -/
def ofTag? (t : String) : Option Opcode :=
  all.find? (·.tag == t)

theorem mem_all (op : Opcode) : op ∈ all := by
  cases op <;> decide

theorem ofByte?_toByte (op : Opcode) : ofByte? op.toByte = some op := by
  have h : all.all (fun op => ofByte? op.toByte == some op) = true := by decide +kernel
  simpa using List.all_eq_true.1 h op (mem_all op)

theorem ofByte?_eq_some_iff {b : UInt8} {op : Opcode} : ofByte? b = some op ↔ op.toByte = b :=
  ⟨fun h => by simpa using List.find?_some h, fun h => h ▸ ofByte?_toByte op⟩

theorem ofTag?_tag (op : Opcode) : ofTag? op.tag = some op := by
  have h : all.all (fun op => ofTag? op.tag == some op) = true := by decide +kernel
  simpa using List.all_eq_true.1 h op (mem_all op)

theorem ofTag?_eq_some_iff {t : String} {op : Opcode} : ofTag? t = some op ↔ op.tag = t :=
  ⟨fun h => by simpa using List.find?_some h, fun h => h ▸ ofTag?_tag op⟩

/-! ### Classes of opcodes -/

/-- Jumps to a label, taken always or on a condition. -/
def isJump (op : Opcode) : Bool :=
  ifeq.toByte ≤ op.toByte && op.toByte ≤ goto.toByte

/-- Jumps that go on with the next instruction when they are not taken. -/
def isConditionalJump (op : Opcode) : Bool :=
  op.isJump && op != goto

/-- Calls of a method. -/
def isInvoke : Opcode → Bool
  | .invokevirtual | .invokespecial | .invokestatic | .invokeinterface => true
  | _ => false

/-- Operations that leave the method normally. -/
def isReturn : Opcode → Bool
  | .ireturn | .lreturn | .freturn | .dreturn | .areturn | .ret => true
  | _ => false

/-- Operations after which the next instruction is never reached by falling through. -/
def isTerminator (op : Opcode) : Bool :=
  op.isReturn ||
    match op with
    | .goto | .tableswitch | .athrow | .frameSuspend => true
    | _ => false

/-- Operations on the frame of the active coroutine. -/
def isFrameOp (op : Opcode) : Bool :=
  0xE0 ≤ op.toByte && op.toByte ≤ 0xEF

end Opcode

end Resumable
