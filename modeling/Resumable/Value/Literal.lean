import Resumable.Value.Basic

/-!
# Literals

A literal describes a value. Building it makes new objects and arrays, and reads the values that
names are bound to.
-/

namespace Resumable

/-- The values that names stand for; the first entry for a name counts. -/
abbrev Bindings := List (String × Value)

/-- The value of a name, null if it has none. -/
def Bindings.value (b : Bindings) (name : String) : Value := (b.lookup name).getD .null

/-- The description of a value. -/
inductive Literal where
  /-- A value without parts. -/
  | plain (value : Value)
  /-- A new object; of two values for one field the last counts. -/
  | object (type : String) (fields : List (String × Literal))
  /-- A new array. -/
  | array (items : List Literal)
  /-- What a name is bound to. -/
  | var (name : String)
  deriving Inhabited

namespace Literal

mutual

/-- Makes the value that a literal describes. -/
def build (b : Bindings) : Literal → Heap → Heap × Value
  | .plain v, h => (h, v)
  | .var name, h => (h, b.value name)
  | .array items, h =>
    let (h, values) := buildAll b items h
    h.newArray values.toArray
  | .object type fields, h =>
    let (h, values) := buildFields b fields h
    let (h, v) := h.newObject type
    match v with
    | .object id => (values.foldl (fun h (name, w) => h.setField id name w) h, v)
    | _ => (h, v)

def buildAll (b : Bindings) : List Literal → Heap → Heap × List Value
  | [], h => (h, [])
  | l :: rest, h =>
    let (h, v) := build b l h
    let (h, values) := buildAll b rest h
    (h, v :: values)

def buildFields (b : Bindings) : List (String × Literal) → Heap → Heap × List (String × Value)
  | [], h => (h, [])
  | (name, l) :: rest, h =>
    let (h, v) := build b l h
    let (h, values) := buildFields b rest h
    (h, (name, v) :: values)

end

end Literal

end Resumable
