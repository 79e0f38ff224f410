import Resumable.Coroutine.FrameStack
import Resumable.Value.Graph

/-!
# Snapshots

Between two runs a coroutine is described by its frames and slots. A snapshot holds them without any
identity: the objects and arrays that can be reached from the slots are numbered in the order in
which a walk from the first slot on comes upon them, and references are those numbers. What was
shared, or referred back to itself, so is shared and refers back again in the copy.

A snapshot may come from outside. `StackSnapshot.fault?` says what keeps it from being rebuilt.
-/

namespace Resumable

/-! ### What a snapshot holds -/

/-- A value inside a snapshot: a reference is a number in the table of cells. -/
inductive FlatValue where
  | null
  | int (value : Int32)
  | long (value : Int64)
  | float (bits : UInt32)
  | double (bits : UInt64)
  | str (value : String)
  | ref (index : Nat)
  deriving DecidableEq, Repr, Inhabited

/-- An object or array inside a snapshot. -/
inductive FlatCell where
  | object (type : String) (fields : List (String × FlatValue))
  | array (items : List FlatValue)
  deriving DecidableEq, Repr, Inhabited

/-- The frames and slots of a coroutine. -/
structure StackSnapshot where
  frames : List FrameMark
  top : Nat
  prims : List UInt64
  refs : List FlatValue
  heap : List FlatCell
  deriving DecidableEq, Repr, Inhabited

/-- Where a coroutine can be captured: before its first run, or between two runs. -/
inductive PauseState where
  | new
  | suspended
  deriving DecidableEq, Repr, Inhabited

/-- A coroutine that is not running. -/
structure CoroutineSnapshot where
  state : PauseState
  stack : StackSnapshot
  deriving DecidableEq, Repr, Inhabited

/-! ### Capturing -/

/-- A value with its reference numbered by the place of the cell in `order`. -/
def FlatValue.ofValue (order : List Cell) : Value → FlatValue
  | .null => .null
  | .int v => .int v
  | .long v => .long v
  | .float bits => .float bits
  | .double bits => .double bits
  | .str s => .str s
  | .object id => .ref (order.idxOf (.object id))
  | .array id => .ref (order.idxOf (.array id))

def FlatCell.ofCell (h : Heap) (order : List Cell) : Cell → FlatCell
  | .object id =>
    let o := h.object id
    .object o.type (o.fields.map fun (name, v) => (name, .ofValue order v))
  | .array id => .array ((h.items id).toList.map (.ofValue order))

/-- Captures the frames and slots of a coroutine, and what the slots refer to. -/
def FrameStack.snapshot (s : FrameStack) (h : Heap) : StackSnapshot :=
  let order := h.reachable s.refs.toList
  { frames := s.frames, top := s.top, prims := s.prims.toList
    refs := s.refs.toList.map (.ofValue order)
    heap := order.map (.ofCell h order) }

/-! ### Rebuilding -/

/-- The number of the cell that a value refers to. -/
def FlatValue.reference? : FlatValue → Option Nat
  | .ref index => some index
  | _ => none

def FlatCell.values : FlatCell → List FlatValue
  | .object _ fields => fields.map (·.2)
  | .array items => items

namespace StackSnapshot

/-- All references of the snapshot, those of the cells first. -/
def references (s : StackSnapshot) : List Nat :=
  (s.heap.flatMap FlatCell.values ++ s.refs).filterMap FlatValue.reference?

/-- What keeps the snapshot from being rebuilt. -/
def fault? (s : StackSnapshot) : Option SnapshotFault :=
  let size := s.prims.length
  if size = 0 ∨ s.refs.length ≠ size then some (.buffers size s.refs.length)
  else if size < s.top then some (.top s.top size)
  else
    match s.frames.find? (size < ·.base) with
    | some frame => some (.base frame.base size)
    | none => (s.references.find? (s.heap.length ≤ ·)).map .reference

end StackSnapshot

/-- A value with its reference looked up among new cells. -/
def FlatValue.toValue (cells : Array Value) : FlatValue → Value
  | .null => .null
  | .int v => .int v
  | .long v => .long v
  | .float bits => .float bits
  | .double bits => .double bits
  | .str s => .str s
  | .ref index => cells[index]?.getD .null

namespace Heap

/-- An empty object or array for a cell. -/
def newCell (h : Heap) : FlatCell → Heap × Value
  | .object type _ => h.newObject type
  | .array _ => h.newArray #[]

/-- Empty objects and arrays for a table of cells. -/
def newCells (h : Heap) (table : List FlatCell) : Heap × Array Value :=
  table.foldl (fun (h, cells) c =>
    let (h, v) := h.newCell c
    (h, cells.push v)) (h, #[])

/-- Fills a new object or array; of two values for one field the last counts. -/
def fillCell (h : Heap) (cells : Array Value) : FlatCell × Value → Heap
  | (.object _ fields, .object id) =>
    fields.foldl (fun h (name, v) => h.setField id name (v.toValue cells)) h
  | (.array items, .array id) =>
    { h with arrays := h.arrays.setIfInBounds id (items.map (·.toValue cells)).toArray }
  | _ => h

/-- New objects and arrays for a table of cells, first all of them empty, so that they can refer to
each other. -/
def adopt (h : Heap) (table : List FlatCell) : Heap × Array Value :=
  let (h, cells) := h.newCells table
  ((table.zip cells.toList).foldl (·.fillCell cells ·) h, cells)

end Heap

/-- Rebuilds frames and slots, with new objects and arrays for those in the snapshot. -/
def StackSnapshot.rebuild (s : StackSnapshot) (h : Heap) : Except RunError (Heap × FrameStack) :=
  match s.fault? with
  | some fault => .error (.snapshot fault)
  | none =>
    let (h, cells) := h.adopt s.heap
    .ok (h, { frames := s.frames, depth := 0, base := 0, top := s.top
              prims := s.prims.toArray
              refs := (s.refs.map (·.toValue cells)).toArray })

end Resumable
