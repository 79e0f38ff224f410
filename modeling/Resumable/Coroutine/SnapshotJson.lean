import Resumable.Coroutine.Snapshot
import Resumable.Json.Basic
import Resumable.Json.Tagged

/-!
# The JSON form of snapshots

A value has its kind beside it, a cell has its kind among its members. Floating-point numbers are
written as their bits, so that every pattern comes back.
-/

namespace Resumable

open Json (Decoder)

/-! ### Writing -/

/-- A value with its kind, and what it holds. -/
def FlatValue.parts : FlatValue → String × Option Json
  | .null => ("null", none)
  | .int v => ("int", some (.int v.toInt))
  | .long v => ("long", some (.int v.toInt))
  | .float bits => ("float", some (.nat bits.toNat))
  | .double bits => ("double", some (.nat bits.toNat))
  | .str s => ("str", some (.str s))
  | .ref index => ("ref", some (.nat index))

def FlatValue.toJson (v : FlatValue) : Json :=
  .obj (("kind", .str v.parts.1) :: v.parts.2.toList.map ("value", ·))

def FlatCell.toJson : FlatCell → Json
  | .object type fields =>
    .obj [("kind", .str "object"), ("class", .str type),
      ("fields", .arr (fields.map fun (name, v) => .arr [.str name, v.toJson]))]
  | .array items => .obj [("kind", .str "array"), ("items", .arr (items.map FlatValue.toJson))]

def FrameMark.toJson (f : FrameMark) : Json :=
  .obj [("resume_index", .nat f.resumeIndex.toNat), ("base", .nat f.base)]

def StackSnapshot.toJson (s : StackSnapshot) : Json :=
  .obj [("frames", .arr (s.frames.map FrameMark.toJson)), ("top", .nat s.top),
    ("prim", .arr (s.prims.map fun slot => .nat slot.toNat)),
    ("refs", .arr (s.refs.map FlatValue.toJson)), ("heap", .arr (s.heap.map FlatCell.toJson))]

def PauseState.tag : PauseState → String
  | .new => "new"
  | .suspended => "suspended"

def CoroutineSnapshot.toJson (s : CoroutineSnapshot) : Json :=
  .obj [("state", .str s.state.tag), ("stack", s.stack.toJson)]

/-! ### Reading -/

namespace Json.Decoder

/-- How deep the slots and cells of a snapshot stand in its text. -/
def snapshotDepth : Nat := 4

def flatValue : Decoder FlatValue := beside snapshotDepth "kind" "value" fun
  | "null" => some (bare .null)
  | "int" => some (carrying fun d => .int <$> int32 d)
  | "long" => some (carrying fun d => .long <$> int64 d)
  | "float" => some (carrying fun d => .float <$> uint32 d)
  | "double" => some (carrying fun d => .double <$> uint64 d)
  | "str" => some (carrying fun d => .str <$> string d)
  | "ref" => some (carrying fun d => .ref <$> natural 64 d)
  | _ => none

/-- A field of a cell: its name and value in an array. -/
def flatField : Decoder (String × FlatValue)
  | .arr [name, v] => return (← string name, ← flatValue v)
  | d => .error d.misfit

def flatCell : Decoder FlatCell := within snapshotDepth "kind" fun
  | "object" => some fun d => (fun (type, fields) => .object type fields) <$>
      pair "class" string "fields" (list flatField) d
  | "array" => some fun d => .array <$>
      record [required "items" (list flatValue) fun _ items => items] [] d
  | _ => none

def frameMark : Decoder FrameMark :=
  record
    [required "resume_index" uint32 fun f resumeIndex => { f with resumeIndex },
      required "base" (natural 64) fun f base => { f with base }]
    default

def stackSnapshot : Decoder StackSnapshot :=
  record
    [required "frames" (list frameMark) fun s frames => { s with frames },
      required "top" (natural 64) fun s top => { s with top },
      required "prim" (list uint64) fun s prims => { s with prims },
      required "refs" (list flatValue) fun s refs => { s with refs },
      required "heap" (list flatCell) fun s heap => { s with heap }]
    default

def pauseState : Decoder PauseState := choice fun tag =>
  bare <$> [PauseState.new, .suspended].find? (·.tag == tag)

def coroutineSnapshot : Decoder CoroutineSnapshot := fun d =>
  (fun (state, stack) => ⟨state, stack⟩) <$> pair "state" pauseState "stack" stackSnapshot d

end Json.Decoder

/-- The snapshot that a JSON text describes. -/
def CoroutineSnapshot.ofJson (s : String) : Except Json.Fault CoroutineSnapshot :=
  Json.Decoder.coroutineSnapshot.run s

end Resumable
