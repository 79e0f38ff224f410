import Resumable.RunError

/-!
# Loaded classes

The table of classes that a machine knows. A class has to pass verification before it is loaded, and
replaces one of the same name. The handlers of a method are kept with the positions of their labels;
one whose labels are not placed is left out.

Walks along ancestors make at most as many steps as there are classes in the table, which is enough
for any path without a cycle.
-/

namespace Resumable

/-- A handler with the positions of its labels. -/
structure LoadedHandler where
  start : Nat
  stop : Nat
  target : Nat
  catchType : Option String
  deriving DecidableEq, Repr, Inhabited

/-- A handler with its labels looked up in the code. -/
def Handler.load? (h : Handler) (code : List Instr) : Option LoadedHandler := do
  return { start := ← labelPosition? code h.start, stop := ← labelPosition? code h.stop
           target := ← labelPosition? code h.target, catchType := h.catchType }

/-- Whether the handler covers an instruction. -/
def LoadedHandler.covers (h : LoadedHandler) (pc : Nat) : Bool := h.start ≤ pc && pc < h.stop

/-- A method of a loaded class. -/
structure LoadedMethod where
  owner : String
  method : Method
  handlers : List LoadedHandler
  deriving DecidableEq, Repr, Inhabited

namespace LoadedMethod

def load (owner : String) (method : Method) : LoadedMethod :=
  { owner, method, handlers := method.handlers.filterMap (·.load? method.code) }

/-- The method as an instruction names it. -/
def ref (m : LoadedMethod) : MemberRef := ⟨m.owner, m.method.name, m.method.desc⟩

/-- The position of a label. -/
def position (m : LoadedMethod) (l : Label) : Except RunError Nat :=
  match labelPosition? m.method.code l with
  | some position => .ok position
  | none => .error (.code (.undefinedLabel l))

end LoadedMethod

/-- A loaded class. -/
structure LoadedClass where
  superName : Option String
  interfaces : List String
  methods : List LoadedMethod
  deriving DecidableEq, Repr, Inhabited

def LoadedClass.load (c : ClassDef) : LoadedClass :=
  { superName := c.superName, interfaces := c.interfaces
    methods := c.methods.map (.load c.name) }

/-- The method of the class with this name and descriptor that has a body. -/
def LoadedClass.findBody? (c : LoadedClass) (name desc : String) : Option LoadedMethod :=
  match c.methods.find? fun m => m.method.name == name && m.method.desc == desc with
  | some m => if m.method.isBodyless then none else some m
  | none => none

/-- The loaded classes by name. -/
structure ClassTable where
  entries : List (String × LoadedClass) := []
  deriving DecidableEq, Repr, Inhabited

namespace ClassTable

def find? (t : ClassTable) (name : String) : Option LoadedClass := t.entries.lookup name

def contains (t : ClassTable) (name : String) : Bool := (t.find? name).isSome

/-- Adds a class, in the place of one with the same name. -/
def insert (t : ClassTable) (c : ClassDef) : ClassTable :=
  ⟨(c.name, .load c) :: t.entries.filter (·.1 != c.name)⟩

/-- Verifies a class and adds it. -/
def load (t : ClassTable) (c : ClassDef) : Except RunError ClassTable :=
  match c.verify with
  | .ok () => .ok (t.insert c)
  | .error cause => .error (.verify (.unit c.name cause))

/-- Whether `ancestor` can be reached from `name` in at most `steps` steps to an ancestor or
interface. -/
def reaches (t : ClassTable) (ancestor : String) : (steps : Nat) → (name : String) → Bool
  | steps, name =>
    name == ancestor ||
      match steps with
      | 0 => false
      | steps + 1 =>
        match t.find? name with
        | none => false
        | some c =>
          c.interfaces.any (t.reaches ancestor steps) || c.superName.any (t.reaches ancestor steps)

/-- Whether a class is `ancestor`, extends it or implements it. -/
def isSubclass (t : ClassTable) (name ancestor : String) : Bool :=
  t.reaches ancestor t.entries.length name

/-- Whether a value is an instance of a type. Null is an instance of nothing. -/
def isInstance (t : ClassTable) (h : Heap) (v : Value) (type : String) : Bool :=
  match v with
  | .str _ => type == Names.string || type == Names.object
  | .array _ => type == Names.object || type.toList.head? == some '['
  | .object id => t.isSubclass (h.object id).type type
  | _ => false

/-- The first handler that covers an instruction and takes the exception. -/
def handlerFor? (t : ClassTable) (h : Heap) (m : LoadedMethod) (pc : Nat) (exception : Value) :
    Option LoadedHandler :=
  m.handlers.find? fun handler =>
    handler.covers pc && handler.catchType.all (t.isInstance h exception)

end ClassTable

end Resumable
