import Resumable.Instr
import Resumable.Names

/-!
# Classes

A compiled class: its ancestry, fields, methods and markers. A method without a body is abstract or
implemented by the host; the table of handlers says which instructions each one covers, and the
first handler that fits takes an exception.
-/

namespace Resumable

/-- A set of access flags of a class, field or method. -/
structure Access where
  bits : UInt16
  deriving DecidableEq, Repr, Inhabited

namespace Access

/-- No flag at all. -/
def none : Access := ⟨0⟩

/-- Visible everywhere. -/
def everywhere : Access := ⟨0x0001⟩

/-- Visible in the class that declares it. -/
def inside : Access := ⟨0x0002⟩

/-- Belongs to the class and not to its instances. -/
def static : Access := ⟨0x0008⟩

/-- Runs while holding the monitor of its receiver. -/
def synchronized : Access := ⟨0x0020⟩

/-- Implemented by the host. -/
def native : Access := ⟨0x0100⟩

/-- Marks an interface. -/
def interface : Access := ⟨0x0200⟩

/-- Has no body. -/
def abstract : Access := ⟨0x0400⟩

def union (a b : Access) : Access := ⟨a.bits ||| b.bits⟩

/-- Whether the two sets have a flag in common. -/
def meets (a b : Access) : Bool := a.bits &&& b.bits != 0

/-- The flags as listings show them: four hexadecimal digits. -/
def render (a : Access) : String :=
  let digits := Text.hexDigits a.bits.toNat
  "0x" ++ "".pushn '0' (4 - digits.length) ++ digits

end Access

/-- Covers the instructions from `start` on and in front of `stop`, and catches `catchType` or,
without one, everything. -/
structure Handler where
  start : Label
  stop : Label
  target : Label
  catchType : Option String := none
  deriving DecidableEq, Repr, Inhabited

/-- A field of a class. -/
structure Field where
  name : String
  desc : String
  access : Access := .none
  deriving DecidableEq, Repr, Inhabited

/-- A method of a class. -/
structure Method where
  name : String
  desc : String
  access : Access := .none
  throws : List String := []
  /-- How many locals an activation has, the receiver and the arguments first. -/
  maxLocals : UInt16 := 0
  code : List Instr := []
  handlers : List Handler := []
  deriving DecidableEq, Repr, Inhabited

namespace Method

def isStatic (m : Method) : Bool := m.access.meets .static

def isSynchronized (m : Method) : Bool := m.access.meets .synchronized

/-- Abstract and host methods have no body. -/
def isBodyless (m : Method) : Bool := m.access.meets (.union .abstract .native)

/-- Whether the method declares that it may throw `type`. -/
def declares (m : Method) (type : String) : Bool := m.throws.contains type

/-- Name and descriptor in one text, by which messages know the method. -/
def signature (m : Method) : String := m.name ++ m.desc

/-- The labels that the method places or refers to. -/
def labels (m : Method) : List Label :=
  (m.code.flatMap fun
    | .label l => [l]
    | i => i.branchTargets) ++
  m.handlers.flatMap fun h => [h.start, h.stop, h.target]

/-- The largest label number in the method. -/
def maxLabel? (m : Method) : Option UInt32 := (m.labels.map Label.id).max?

end Method

/-- A compiled class. Only the root of the hierarchy has no ancestor. -/
structure ClassDef where
  name : String
  superName : Option String := none
  access : Access := .none
  interfaces : List String := []
  markers : List String := []
  fields : List Field := []
  methods : List Method := []
  sourceFile : Option String := none
  deriving DecidableEq, Repr, Inhabited

namespace ClassDef

def hasMarker (c : ClassDef) (marker : String) : Bool := c.markers.contains marker

def isInterface (c : ClassDef) : Bool := c.access.meets .interface

/-- The method with this name and descriptor. -/
def findMethod? (c : ClassDef) (name desc : String) : Option Method :=
  c.methods.find? fun m => m.name == name && m.desc == desc

end ClassDef

end Resumable
