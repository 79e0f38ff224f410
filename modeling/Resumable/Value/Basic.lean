import Resumable.Instr
import Resumable.Names

/-!
# Values and the heap

A value is a primitive, a text, null, or the identity of an object or array that lives in the heap.
Two values are the same exactly when they are equal in Lean: floating-point numbers are kept as
bits, texts compare by content, and objects and arrays by identity.

The heap only grows. Its first object is the suspension signal, which is known by its identity and
not by its class.
-/

namespace Resumable

/-- A value of a local, an operand, a field or an element. -/
inductive Value where
  | null
  | int (value : Int32)
  | long (value : Int64)
  | float (bits : UInt32)
  | double (bits : UInt64)
  | str (value : String)
  | object (id : Nat)
  | array (id : Nat)
  deriving DecidableEq, Repr, Inhabited

namespace Value

/-- The value that a field or element has before the first write: zero, or null for references. -/
def initial (desc : String) : Value :=
  match desc.toList.head? with
  | some 'I' | some 'Z' | some 'B' | some 'C' | some 'S' => .int 0
  | some 'J' => .long 0
  | some 'F' => .float 0
  | some 'D' => .double 0
  | _ => .null

/-- The value that a constant instruction pushes. -/
def ofConstant : Constant → Value
  | .int v => .int v
  | .long v => .long v
  | .float bits => .float bits
  | .double bits => .double bits
  | .str s => .str s

def isNull (v : Value) : Bool := v == .null

/-- The category of the value. -/
def kind : Value → SlotKind
  | .int _ => .int
  | .long _ => .long
  | .float _ => .float
  | .double _ => .double
  | .null | .str _ | .object _ | .array _ => .ref

/-- Whether the value is a reference; null is one. -/
def isReference (v : Value) : Bool := v.kind == .ref

/-- What messages call the type of the value. -/
def typeName : Value → String
  | .null => "null"
  | .int _ => "int"
  | .long _ => "long"
  | .float _ => "float"
  | .double _ => "double"
  | .str _ => "string"
  | .object _ => "object"
  | .array _ => "array"

/-- Whether two references are the same. A primitive is not the same as anything. -/
def isSameReference (a b : Value) : Bool := a.isReference && a == b

end Value

/-- An instance of a class. Only fields that have been written are there; they are sorted by name. -/
structure Object where
  type : String
  fields : List (String × Value) := []
  deriving DecidableEq, Repr, Inhabited

namespace Object

def get? (o : Object) (name : String) : Option Value := o.fields.lookup name

/-- Puts a field in its place, or a new value into it. -/
def setField (name : String) (v : Value) : List (String × Value) → List (String × Value)
  | [] => [(name, v)]
  | (other, w) :: rest =>
    if name = other then (name, v) :: rest
    else if name < other then (name, v) :: (other, w) :: rest
    else (other, w) :: setField name v rest

def set (o : Object) (name : String) (v : Value) : Object :=
  { o with fields := setField name v o.fields }

end Object

/-- All objects and arrays, by identity. -/
structure Heap where
  objects : Array Object
  arrays : Array (Array Value)
  deriving DecidableEq, Repr, Inhabited

namespace Heap

/-- The heap that holds nothing but the suspension signal. -/
def initial : Heap := ⟨#[{ type := Names.suspendExecution }], #[]⟩

/-- The object whose throw suspends a coroutine. -/
def signal : Value := .object 0

/-- A new object without fields. -/
def newObject (h : Heap) (type : String) : Heap × Value :=
  ({ h with objects := h.objects.push { type } }, .object h.objects.size)

def newArray (h : Heap) (items : Array Value) : Heap × Value :=
  ({ h with arrays := h.arrays.push items }, .array h.arrays.size)

/-- The object with this identity. -/
def object (h : Heap) (id : Nat) : Object := h.objects[id]?.getD default

/-- The field of an object, if it has been written. -/
def getField? (h : Heap) (id : Nat) (name : String) : Option Value := (h.object id).get? name

def setField (h : Heap) (id : Nat) (name : String) (v : Value) : Heap :=
  { h with objects := h.objects.modify id (·.set name v) }

/-- The elements of an array. -/
def items (h : Heap) (id : Nat) : Array Value := h.arrays[id]?.getD #[]

def setItem (h : Heap) (id index : Nat) (v : Value) : Heap :=
  { h with arrays := h.arrays.modify id (·.setIfInBounds index v) }

/-- The class that calls on the value are looked up in. -/
def className? (h : Heap) : Value → Option String
  | .str _ => some Names.string
  | .object id => h.objects[id]?.map Object.type
  | .array _ => some Names.object
  | _ => none

/-- A new exception that carries a message. -/
def newException (h : Heap) (type message : String) : Heap × Value :=
  ({ h with objects := h.objects.push { type, fields := [("message", .str message)] } },
    .object h.objects.size)

end Heap

end Resumable
