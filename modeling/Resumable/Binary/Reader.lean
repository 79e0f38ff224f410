import Resumable.Binary.Bytes
import Resumable.Instr

/-!
# Reading bytes

A reader takes a value off the front of the remaining bytes and knows how many it has passed. One
that fails says where, and stays where it stands: what it took before the failure is gone, what it
failed to take is not.
-/

namespace Resumable.Binary

/-- Why bytes cannot be read, with the offset of the offence. -/
inductive DecodeError where
  | unexpectedEnd (offset : Nat)
  | invalidText (offset : Nat)
  | invalidOpcode (byte : UInt8) (offset : Nat)
  | invalidSlotKind (byte : UInt8) (offset : Nat)
  deriving DecidableEq, Repr

/-- A byte as messages show it: two hexadecimal digits. -/
def renderByte (b : UInt8) : String :=
  let digits := Text.hexDigits b.toNat
  "0x" ++ "".pushn '0' (2 - digits.length) ++ digits

def DecodeError.message : DecodeError → String
  | .unexpectedEnd offset => s!"Unexpected end of bytecode at offset {offset}"
  | .invalidText offset => s!"Invalid UTF-8 string at offset {offset}"
  | .invalidOpcode byte offset => s!"Invalid opcode {renderByte byte} at offset {offset}"
  | .invalidSlotKind byte offset => s!"Invalid slot kind {byte} at offset {offset}"

/-- The bytes that are left, and the number of those already passed. -/
structure Cursor where
  position : Nat
  rest : List UInt8
  deriving DecidableEq, Repr

def Cursor.start (bytes : List UInt8) : Cursor := ⟨0, bytes⟩

def Cursor.isAtEnd (c : Cursor) : Bool := c.rest.isEmpty

/-- Takes a value off the front of the remaining bytes. -/
abbrev Reader := ExceptT DecodeError (StateM Cursor)

namespace Reader

/-- Takes exactly `count` bytes. -/
def take (count : Nat) : Reader (List UInt8) := do
  let c ← get
  let bytes := c.rest.take count
  if bytes.length = count then
    set (⟨c.position + count, c.rest.drop count⟩ : Cursor)
    return bytes
  else
    throw (.unexpectedEnd c.position)

/-- Takes a number of `width` bytes. -/
def number (width : Nat) : Reader Nat := ofBytes <$> take width

def uint8 : Reader UInt8 := UInt8.ofNat <$> number 1

def uint16 : Reader UInt16 := UInt16.ofNat <$> number 2

def uint32 : Reader UInt32 := UInt32.ofNat <$> number 4

def uint64 : Reader UInt64 := UInt64.ofNat <$> number 8

def int32 : Reader Int32 := UInt32.toInt32 <$> uint32

def int64 : Reader Int64 := UInt64.toInt64 <$> uint64

def position : Reader Nat := Cursor.position <$> get

/-- Takes a text. Bytes that are no text are taken all the same. -/
def string : Reader String := do
  let length ← number 4
  let start ← position
  let bytes ← take length
  match String.fromUTF8? ⟨bytes.toArray⟩ with
  | some s => return s
  | none => throw (.invalidText start)

/-- Takes a text if the byte in front of it is not zero. -/
def string? : Reader (Option String) := do
  if (← uint8) = 0 then return none else some <$> string

/-- Takes `count` values. -/
def times {α : Type} (count : Nat) (read : Reader α) : Reader (List α) :=
  match count with
  | 0 => return []
  | count + 1 => return (← read) :: (← times count read)

/-- Takes as many values as the number in front of them says. -/
def list {α : Type} (read : Reader α) : Reader (List α) := do
  times (← number 4) read

def opcode : Reader Opcode := do
  let at' ← position
  let byte ← uint8
  match Opcode.ofByte? byte with
  | some op => return op
  | none => throw (.invalidOpcode byte at')

def slotKind : Reader SlotKind := do
  let at' ← position
  let byte ← uint8
  match SlotKind.ofByte? byte with
  | some kind => return kind
  | none => throw (.invalidSlotKind byte at')

def label : Reader Label := Label.mk <$> uint32

/-- Runs a reader on the whole of `bytes`. -/
def runOn {α : Type} (read : Reader α) (bytes : List UInt8) : Except DecodeError α :=
  (read.run (Cursor.start bytes)).1

end Reader

end Resumable.Binary
