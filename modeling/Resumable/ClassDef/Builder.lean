import Resumable.ClassDef.Basic
import Resumable.Descriptor

/-!
# Building classes

A method under construction collects instructions and hands out labels. The number of its locals
need not be given: it is what the descriptor and the instructions call for, unless more are asked
for.
-/

namespace Resumable

/-- A method under construction. -/
structure MethodDraft where
  name : String
  desc : String
  access : Access
  throws : List String := []
  code : List Instr := []
  handlers : List Handler := []
  nextLabel : UInt32 := 0
  minLocals : UInt16 := 0
  deriving Repr

namespace MethodDraft

def new (name desc : String) (access : Access) : MethodDraft := { name, desc, access }

/-- Adds an instruction at the end. -/
def emit (d : MethodDraft) (i : Instr) : MethodDraft := { d with code := d.code ++ [i] }

/-- Declares an exception type. -/
def throwing (d : MethodDraft) (type : String) : MethodDraft :=
  { d with throws := d.throws ++ [type] }

/-- Asks for at least `count` locals. -/
def locals (d : MethodDraft) (count : UInt16) : MethodDraft :=
  { d with minLocals := max d.minLocals count }

/-- A label that the method has not used yet. -/
def newLabel (d : MethodDraft) : Label × MethodDraft :=
  (⟨d.nextLabel⟩, { d with nextLabel := d.nextLabel + 1 })

/-- Adds a handler at the end of the table. -/
def handle (d : MethodDraft) (h : Handler) : MethodDraft :=
  { d with handlers := d.handlers ++ [h] }

/-- One more than the largest local that an instruction names. -/
def usedLocals (d : MethodDraft) : Nat :=
  (d.code.filterMap Instr.localIndex?).foldl (fun most i => max most (i.toNat + 1)) 0

/-- The finished method. -/
def build (d : MethodDraft) : Method :=
  let params := match MethodType.parse d.desc with
    | .ok type => type.arity
    | .error _ => 0
  let receiver := if d.access.meets .static then 0 else 1
  let count := max (max (params + receiver) d.usedLocals) d.minLocals.toNat
  { name := d.name, desc := d.desc, access := d.access, throws := d.throws
    maxLocals := UInt16.ofNat (min count 0xFFFF), code := d.code, handlers := d.handlers }

end MethodDraft

namespace ClassDef

/-- A class visible everywhere that extends the root of the hierarchy. -/
def new (name : String) : ClassDef :=
  { name, superName := some Names.object, access := .everywhere }

def addMethod (c : ClassDef) (m : Method) : ClassDef := { c with methods := c.methods ++ [m] }

/-- Adds a field of the instances. -/
def addField (c : ClassDef) (name desc : String) : ClassDef :=
  { c with fields := c.fields ++ [{ name, desc, access := .inside }] }

/-- Adds a field of the class itself. -/
def addStaticField (c : ClassDef) (name desc : String) : ClassDef :=
  { c with fields := c.fields ++ [{ name, desc, access := .union .everywhere .static }] }

/-- Adds a constructor without arguments that calls the ancestor's. -/
def addDefaultConstructor (c : ClassDef) : ClassDef :=
  let parent := c.superName.getD Names.object
  let d := MethodDraft.new Names.constructor "()V" .everywhere
  let d := d.emit (.local .aload 0)
  let d := d.emit (.invoke .invokespecial ⟨parent, Names.constructor, "()V"⟩)
  c.addMethod (d.emit (.simple .ret)).build

end ClassDef

end Resumable
