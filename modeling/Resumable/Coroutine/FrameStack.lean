import Resumable.RunError

/-!
# The frames of a coroutine

A coroutine keeps the live values of its suspended methods in two buffers of slots, one for
primitives and one for references. Each frame has a base, its first slot in both buffers, and a
resume index, which says where the method goes on.

A method enters its frame when it starts. Before a call that may suspend it reserves slots and saves
its values; that also fixes the base of the frame that the callee will enter. After a suspension the
cursor is rewound, and the methods enter their frames again from the outermost one, each finding the
resume index that it has recorded.
-/

namespace Resumable

namespace Value

/-- A primitive as a slot keeps it: ints with their sign extended, floats in the low half. -/
def toSlot : Value → UInt64
  | .int v => v.toInt64.toUInt64
  | .long v => v.toUInt64
  | .float bits => bits.toUInt64
  | .double bits => bits
  | _ => 0

/-- The primitive of some kind that a slot keeps. -/
def ofSlot (kind : SlotKind) (slot : UInt64) : Value :=
  match kind with
  | .int => .int slot.toUInt32.toInt32
  | .long => .long slot.toInt64
  | .float => .float slot.toUInt32
  | .double => .double slot
  | .ref => .null

end Value

/-- One entered or prepared frame. -/
structure FrameMark where
  /-- Where the method goes on; 0 is its start. -/
  resumeIndex : UInt32
  base : Nat
  deriving DecidableEq, Repr, Inhabited

/-- The frames of a coroutine and their slots. -/
structure FrameStack where
  frames : List FrameMark
  /-- How many frames have been entered since the last rewinding. -/
  depth : Nat
  /-- The base of the current frame. -/
  base : Nat
  /-- The end of the slots that the innermost frame has reserved. -/
  top : Nat
  prims : Array UInt64
  refs : Array Value
  deriving DecidableEq, Repr, Inhabited

namespace FrameStack

/-- An empty stack with some slots. -/
def ofSize (size : Nat) : FrameStack :=
  { frames := [], depth := 0, base := 0, top := 0
    prims := .replicate size 0, refs := .replicate size .null }

/-- An empty stack; there has to be at least one slot. -/
def new (size : Nat) : Except RunError FrameStack :=
  if size = 0 then .error (.illegalArgument .emptyStack) else .ok (ofSize size)

/-- How many slots a coroutine has unless it asks for another number. -/
def standardSize : Nat := 16

/-- An empty stack of the standard size. -/
def standard : FrameStack := ofSize standardSize

/-- How many slots each buffer has. -/
def capacity (s : FrameStack) : Nat := s.prims.size

/-- Enters the next frame and says where its method goes on. A frame that no caller has prepared
starts at 0 or above the live ones. -/
def enter (s : FrameStack) : UInt32 × FrameStack :=
  match s.frames[s.depth]? with
  | some frame => (frame.resumeIndex, { s with depth := s.depth + 1, base := frame.base })
  | none =>
    let base := if s.depth = 0 then 0 else s.top
    (0, { s with frames := s.frames ++ [⟨0, base⟩], depth := s.depth + 1, base })

/-- The current frame and its index. -/
def current (s : FrameStack) : Except RunError (Nat × FrameMark) :=
  match s.depth with
  | 0 => .error (.invalidState .noFrameEntered)
  | index + 1 =>
    match s.frames[index]? with
    | some frame => .ok (index, frame)
    | none => .error (.invalidState .cursorOutOfRange)

/-- The first power-of-two multiple of `size` that is at least `required`. -/
def doubled (size required : Nat) : Nat :=
  if 0 < size ∧ size < required then doubled (2 * size) required else size
termination_by required - size
decreasing_by omega

/-- Makes room for `required` slots in both buffers. -/
def grow (s : FrameStack) (required : Nat) : FrameStack :=
  if s.capacity < required then
    let more := doubled (max s.capacity 1) required - s.capacity
    { s with prims := s.prims ++ .replicate more 0, refs := s.refs ++ .replicate more .null }
  else s

/-- No buffer has more slots than this, which take `2 ^ 63` bytes. -/
def maxCapacity : Nat := (1 <<< 60) - 1

/-- The buffers have room for `required` slots, or can be given it. Where they cannot, doubling their
size leaves 64 bits behind, or there is no memory for the size that it comes to. -/
def CanHold (s : FrameStack) (required : Nat) : Prop :=
  s.capacity < required → doubled (max s.capacity 1) required ≤ maxCapacity

instance (s : FrameStack) (required : Nat) : Decidable (s.CanHold required) :=
  inferInstanceAs (Decidable (s.capacity < required →
    doubled (max s.capacity 1) required ≤ maxCapacity))

/-- Records where the current method goes on and reserves its slots. The frame above it starts behind
them; any other frame above is forgotten. Where the slots end is a number of 64 bits, so that too many
of them end near the start of the buffers. -/
def reserve (s : FrameStack) (resumeIndex : UInt32) (slots : UInt64) :
    Except RunError FrameStack := do
  let (index, frame) ← s.current
  let top := (frame.base + slots.toNat) % UInt64.size
  if ¬ s.CanHold top then throw (.code (.tooManySlots top))
  return { s.grow top with
    frames := s.frames.take index ++ [⟨resumeIndex, frame.base⟩, ⟨0, top⟩]
    base := frame.base
    top }

/-- Leaves the current frame. Its references are forgotten, and the caller's frame is current
again. -/
def release (s : FrameStack) : Except RunError FrameStack := do
  let (index, frame) ← s.current
  return { s with
    frames := s.frames.take index
    depth := index
    base := if index = 0 then 0 else (s.frames[index - 1]?.map FrameMark.base).getD 0
    top := frame.base
    refs := s.refs.mapIdx fun i v => if frame.base ≤ i ∧ i < s.top then .null else v }

/-- Puts the cursor in front of the outermost frame. -/
def rewind (s : FrameStack) : FrameStack := { s with depth := 0, base := 0 }

/-- The index of a slot of the current frame in the buffers. -/
def slotIndex (s : FrameStack) (slot : UInt32) : Except RunError Nat :=
  let index := s.base + slot.toNat
  if index < s.capacity then .ok index else .error (.invalidState (.slotOutside slot))

/-- Keeps a value in a slot of the current frame; it has to be of the slot's kind. -/
def save (s : FrameStack) (kind : SlotKind) (slot : UInt32) (v : Value) :
    Except RunError FrameStack := do
  if v.kind ≠ kind then throw (.type (.cannotSave v.typeName kind))
  let index ← s.slotIndex slot
  return if kind.isReference then { s with refs := s.refs.setIfInBounds index v }
    else { s with prims := s.prims.setIfInBounds index v.toSlot }

/-- The value that a slot of the current frame keeps. -/
def restore (s : FrameStack) (kind : SlotKind) (slot : UInt32) : Except RunError Value := do
  let index ← s.slotIndex slot
  return if kind.isReference then s.refs[index]?.getD .null
    else .ofSlot kind (s.prims[index]?.getD 0)

/-- The text of a frame for a reader of reports. -/
def describeFrame (f : FrameMark) : String :=
  s!"FrameDescriptor \x7b resume_index: {f.resumeIndex}, base: {f.base} \x7d"

/-- The text of a stack for a reader of reports. -/
def describe (s : FrameStack) : String :=
  let frames := ", ".intercalate (s.frames.map describeFrame)
  s!"Stack \x7b entries: [{frames}], depth: {s.depth}, current_base: {s.base}, " ++
    s!"capacity: {s.capacity} \x7d"

end FrameStack

end Resumable
