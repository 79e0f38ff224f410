import Resumable.ClassDef.Basic
import Resumable.Json.Basic
import Resumable.Json.Draft

/-!
# The JSON form of classes

Records are objects with a fixed order of keys, an instruction is an object whose only key tells its
shape. Every field of a class but its name may be left out; numbers that are not finite are written
as null and so do not come back.

A class is read from a text of its own or from a place in a larger value. In both its records may be
arrays as well, but the operands of an instruction only in a text of its own: see `OperandForm`.
-/

namespace Resumable

open Json (Decoder)

/-! ### Writing -/

namespace Json

/-- An alternative with its value. -/
def tagged (tag : String) (value : Json) : Json := .obj [(tag, value)]

/-- A list of texts. -/
def strings (items : List String) : Json := .arr (items.map .str)

/-- A 32-bit floating-point number: positional for leading digits from 10⁻⁶ up to 10¹². -/
def single (bits : UInt32) : Json := .num (Decimal.renderSingle (.json (-6) 12) bits)

/-- A 64-bit floating-point number: positional for leading digits from 10⁻⁵ up to 10¹⁵. -/
def double (bits : UInt64) : Json := .num (Decimal.renderDouble (.json (-5) 15) bits)

end Json

def Label.toJson (l : Label) : Json := .nat l.id.toNat

def Opcode.toJson (op : Opcode) : Json := .str op.tag

def SlotKind.toJson (k : SlotKind) : Json := .str k.tag

def Constant.toJson : Constant → Json
  | .int v => .tagged "Int" (.int v.toInt)
  | .long v => .tagged "Long" (.int v.toInt)
  | .float bits => .tagged "Float" (.single bits)
  | .double bits => .tagged "Double" (.double bits)
  | .str s => .tagged "Str" (.str s)

def FrameOp.toJson : FrameOp → Json
  | .entry => .str "Entry"
  | .reserve resumeIndex slots =>
    .tagged "Reserve" (.obj [("entry", .nat resumeIndex.toNat), ("slots", .nat slots.toNat)])
  | .release => .str "Release"
  | .save kind slot =>
    .tagged "Save" (.obj [("kind", kind.toJson), ("slot", .nat slot.toNat)])
  | .restore kind slot =>
    .tagged "Restore" (.obj [("kind", kind.toJson), ("slot", .nat slot.toNat)])
  | .suspend => .str "Suspend"

/-- The members for an opcode and the member that it works on. -/
def MemberRef.toJson (op : Opcode) (m : MemberRef) : Json :=
  .obj [("op", op.toJson), ("owner", .str m.owner), ("name", .str m.name), ("desc", .str m.desc)]

def Instr.toJson : Instr → Json
  | .label l => .tagged "Label" l.toJson
  | .simple op => .tagged "Simple" op.toJson
  | .const c => .tagged "Const" c.toJson
  | .local op index => .tagged "Var" (.obj [("op", op.toJson), ("index", .nat index.toNat)])
  | .inc index delta =>
    .tagged "Inc" (.obj [("index", .nat index.toNat), ("delta", .int delta.toInt)])
  | .jump op target => .tagged "Jump" (.obj [("op", op.toJson), ("target", target.toJson)])
  | .switch low default targets =>
    .tagged "Switch" (.obj [("low", .int low.toInt), ("default", default.toJson),
      ("targets", .arr (targets.map Label.toJson))])
  | .field op m => .tagged "Field" (m.toJson op)
  | .invoke op m => .tagged "Invoke" (m.toJson op)
  | .type op desc => .tagged "Type" (.obj [("op", op.toJson), ("desc", .str desc)])
  | .frame f => .tagged "Frame" f.toJson

def Access.toJson (a : Access) : Json := .nat a.bits.toNat

def Handler.toJson (h : Handler) : Json :=
  .obj [("start", h.start.toJson), ("end", h.stop.toJson), ("handler", h.target.toJson),
    ("catch_type", .str? h.catchType)]

def Field.toJson (f : Field) : Json :=
  .obj [("name", .str f.name), ("desc", .str f.desc), ("access", f.access.toJson)]

def Method.toJson (m : Method) : Json :=
  .obj [("name", .str m.name), ("desc", .str m.desc), ("access", m.access.toJson),
    ("throws", .strings m.throws), ("max_locals", .nat m.maxLocals.toNat),
    ("code", .arr (m.code.map Instr.toJson)), ("handlers", .arr (m.handlers.map Handler.toJson))]

def ClassDef.toJson (c : ClassDef) : Json :=
  .obj [("name", .str c.name), ("super_name", .str? c.superName), ("access", c.access.toJson),
    ("interfaces", .strings c.interfaces), ("markers", .strings c.markers),
    ("fields", .arr (c.fields.map Field.toJson)), ("methods", .arr (c.methods.map Method.toJson)),
    ("source_file", .str? c.sourceFile)]

/-! ### Reading -/

namespace Json.Decoder

def opcode : Decoder Opcode := choice fun tag => bare <$> Opcode.ofTag? tag

def slotKind : Decoder SlotKind := choice fun tag => bare <$> SlotKind.ofTag? tag

def label : Decoder Label := fun d => Label.mk <$> uint32 d

def access : Decoder Access := fun d => Access.mk <$> uint16 d

def constant : Decoder Constant := choice fun
  | "Int" => some (carrying fun d => .int <$> int32 d)
  | "Long" => some (carrying fun d => .long <$> int64 d)
  | "Float" => some (carrying fun d => .float <$> single d)
  | "Double" => some (carrying fun d => .double <$> double d)
  | "Str" => some (carrying fun d => .str <$> string d)
  | _ => none

/-- How several operands of an instruction may be written. -/
inductive OperandForm where
  /-- As an object. -/
  | named
  /-- As an object or as an array in the same order. -/
  | listed
  deriving DecidableEq, Repr, Inhabited

/-- An alternative with several operands. -/
def operands {α β : Type} (form : OperandForm) (decode : Decoder α) (make : α → β) :
    Option Draft → Except Fault β :=
  carrying fun d => make <$> match form with
    | .named => named decode d
    | .listed => decode d

def frameOp (form : OperandForm) : Decoder FrameOp := choice fun
  | "Entry" => some (bare .entry)
  | "Reserve" => some (operands form (pair "entry" uint32 "slots" uint32)
    fun (entry, slots) => .reserve entry slots)
  | "Release" => some (bare .release)
  | "Save" => some (operands form (pair "kind" slotKind "slot" uint32)
    fun (kind, slot) => .save kind slot)
  | "Restore" => some (operands form (pair "kind" slotKind "slot" uint32)
    fun (kind, slot) => .restore kind slot)
  | "Suspend" => some (bare .suspend)
  | _ => none

/-- An opcode and the member that it works on. -/
def member : Decoder (Opcode × MemberRef) :=
  record
    [required "op" opcode fun s op => (op, s.2),
      required "owner" string fun s owner => (s.1, { s.2 with owner }),
      required "name" string fun s name => (s.1, { s.2 with name }),
      required "desc" string fun s desc => (s.1, { s.2 with desc })]
    default

/-- The operands of a switch. -/
def switch : Decoder (Int32 × Label × List Label) :=
  record
    [required "low" int32 fun s low => (low, s.2),
      required "default" label fun s l => (s.1, l, s.2.2),
      required "targets" (list label) fun s targets => (s.1, s.2.1, targets)]
    default

def instr (form : OperandForm) : Decoder Instr := choice fun
  | "Label" => some (carrying fun d => .label <$> label d)
  | "Simple" => some (carrying fun d => .simple <$> opcode d)
  | "Const" => some (carrying fun d => .const <$> constant d)
  | "Var" => some (operands form (pair "op" opcode "index" uint16)
    fun (op, index) => .local op index)
  | "Inc" => some (operands form (pair "index" uint16 "delta" int32)
    fun (index, delta) => .inc index delta)
  | "Jump" => some (operands form (pair "op" opcode "target" label)
    fun (op, target) => .jump op target)
  | "Switch" => some (operands form switch
    fun (low, default, targets) => .switch low default targets)
  | "Field" => some (operands form member fun (op, m) => .field op m)
  | "Invoke" => some (operands form member fun (op, m) => .invoke op m)
  | "Type" => some (operands form (pair "op" opcode "desc" string)
    fun (op, desc) => .type op desc)
  | "Frame" => some (carrying fun d => .frame <$> frameOp form d)
  | _ => none

def handler : Decoder Handler :=
  record
    [required "start" label fun h start => { h with start },
      required "end" label fun h stop => { h with stop },
      required "handler" label fun h target => { h with target },
      optional "catch_type" (option string) fun h catchType => { h with catchType }]
    { start := ⟨0⟩, stop := ⟨0⟩, target := ⟨0⟩ }

def field : Decoder Field :=
  record
    [required "name" string fun f name => { f with name },
      required "desc" string fun f desc => { f with desc },
      optional "access" access fun f access => { f with access }]
    { name := "", desc := "" }

def method (form : OperandForm) : Decoder Method :=
  record
    [required "name" string fun m name => { m with name },
      required "desc" string fun m desc => { m with desc },
      optional "access" access fun m access => { m with access },
      optional "throws" (list string) fun m throws => { m with throws },
      optional "max_locals" uint16 fun m maxLocals => { m with maxLocals },
      optional "code" (list (instr form)) fun m code => { m with code },
      optional "handlers" (list handler) fun m handlers => { m with handlers }]
    { name := "", desc := "" }

def classDef (form : OperandForm) : Decoder ClassDef :=
  record
    [required "name" string fun c name => { c with name },
      optional "super_name" (option string) fun c superName => { c with superName },
      optional "access" access fun c access => { c with access },
      optional "interfaces" (list string) fun c interfaces => { c with interfaces },
      optional "markers" (list string) fun c markers => { c with markers },
      optional "fields" (list field) fun c fields => { c with fields },
      optional "methods" (list (method form)) fun c methods => { c with methods },
      optional "source_file" (option string) fun c sourceFile => { c with sourceFile }]
    { name := "" }

end Json.Decoder

/-- The class that a JSON text describes. -/
def ClassDef.ofJson (s : String) : Except Json.Fault ClassDef :=
  (Json.Decoder.classDef .listed).run s

end Resumable
