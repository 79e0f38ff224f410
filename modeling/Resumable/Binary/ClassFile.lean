import Resumable.Binary.Checksum
import Resumable.Binary.Code
import Resumable.ClassDef.Basic

/-!
# Class files

The binary form of a class: a header of sixteen bytes (four letters, version, flags, checksum of all
that follows) and the payload. The flags tell whether the payload names a source file.
-/

namespace Resumable.Binary

/-- The four letters at the front of a class file. -/
def magic : List UInt8 := [0x52, 0x41, 0x56, 0x4C]

/-- The version of the format. -/
def version : UInt32 := 1

/-- The flag of a class that names its source file. -/
def sourceFileFlag : UInt32 := 1

/-- Why bytes are no class file. -/
inductive ClassFileError where
  | decode (cause : DecodeError)
  | invalidMagic (bytes : List UInt8)
  | unsupportedVersion (found : UInt32)
  | checksumMismatch (stored actual : UInt32)
  | trailingData (offset : Nat)
  deriving DecidableEq, Repr

def ClassFileError.message : ClassFileError → String
  | .decode cause => s!"Decode error: {cause.message}"
  | .invalidMagic bytes =>
    "Invalid magic number: expected RAVL, got [" ++
      ", ".intercalate (bytes.map fun b => toString b) ++ "]"
  | .unsupportedVersion found => s!"Unsupported version: {found} (current: {version})"
  | .checksumMismatch stored actual =>
    s!"Checksum mismatch: expected 0x{Text.hexDigits stored.toNat}, got 0x" ++
      Text.hexDigits actual.toNat
  | .trailingData offset => s!"Trailing data after unit at offset {offset}"

/-! ### Writing -/

/-- A list behind its length. -/
def ofList {α : Type} (write : α → List UInt8) (items : List α) : List UInt8 :=
  ofLength items.length ++ items.flatMap write

def ofHandler (h : Handler) : List UInt8 :=
  ofUInt32 h.start.id ++ ofUInt32 h.stop.id ++ ofUInt32 h.target.id ++ ofString? h.catchType

def ofField (f : Field) : List UInt8 :=
  ofString f.name ++ ofString f.desc ++ ofUInt16 f.access.bits

def ofMethod (m : Method) : List UInt8 :=
  ofString m.name ++ ofString m.desc ++ ofUInt16 m.access.bits ++ ofList ofString m.throws ++
    ofUInt16 m.maxLocals ++ ofLength (ofCode m.code).length ++ ofCode m.code ++
    ofList ofHandler m.handlers

/-- All of a class file behind its header. -/
def payload (c : ClassDef) : List UInt8 :=
  ofString c.name ++ ofString? c.superName ++ ofUInt16 c.access.bits ++
    ofList ofString c.interfaces ++ ofList ofString c.markers ++
    (match c.sourceFile with
      | some file => ofString file
      | none => []) ++
    ofList ofField c.fields ++ ofList ofMethod c.methods

/-- The flags in the header of a class's file. -/
def headerFlags (c : ClassDef) : UInt32 :=
  if c.sourceFile.isSome then sourceFileFlag else 0

/-- The class file of a class. -/
def ofClass (c : ClassDef) : List UInt8 :=
  magic ++ ofUInt32 version ++ ofUInt32 (headerFlags c) ++ ofUInt32 (checksum (payload c)) ++
    payload c

/-! ### Reading -/

namespace Reader

def handler : Reader Handler :=
  return { start := ← label, stop := ← label, target := ← label, catchType := ← string? }

def access : Reader Access := Access.mk <$> uint16

def field : Reader Field :=
  return { name := ← string, desc := ← string, access := ← access }

/-- Takes the bytes of a body and reads them on their own, with offsets that start at the body. -/
def body : Reader (List Instr) := do
  match toCode (← take (← number 4)) with
  | .ok code => return code
  | .error cause => throw cause

def method : Reader Method :=
  return { name := ← string, desc := ← string, access := ← access, throws := ← list string
           maxLocals := ← uint16, code := ← body, handlers := ← list handler }

/-- Takes the payload of a class file whose header has these flags. -/
def classDef (flags : UInt32) : Reader ClassDef := do
  let name ← string
  let superName ← string?
  let access ← access
  let interfaces ← list string
  let markers ← list string
  let sourceFile ← if flags &&& sourceFileFlag != 0 then some <$> string else pure none
  let fields ← list field
  let methods ← list method
  return { name, superName, access, interfaces, markers, fields, methods, sourceFile }

end Reader

/-- A reader together with the checks of a class file. -/
abbrev FileReader := ExceptT ClassFileError (StateM Cursor)

/-- A reader's failure is one of the file. -/
def FileReader.lift {α : Type} (read : Reader α) : FileReader α := do
  match ← (read.run : StateM Cursor _) with
  | .ok a => return a
  | .error cause => throw (.decode cause)

/-- Takes a whole class file. -/
def FileReader.file : FileReader ClassDef := do
  let letters ← lift (.take 4)
  if letters != magic then throw (.invalidMagic letters)
  let found ← lift .uint32
  if found != version then throw (.unsupportedVersion found)
  let flags ← lift .uint32
  let stored ← lift .uint32
  let actual := checksum (← get).rest
  if stored != actual then throw (.checksumMismatch stored actual)
  let c ← lift (.classDef flags)
  let cursor ← get
  if !cursor.isAtEnd then throw (.trailingData cursor.position)
  return c

/-- The class that a class file holds. -/
def toClass (bytes : List UInt8) : Except ClassFileError ClassDef :=
  (FileReader.file.run (Cursor.start bytes)).1

end Resumable.Binary
