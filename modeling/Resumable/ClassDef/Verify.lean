import Resumable.ClassDef.Basic
import Resumable.Descriptor

/-!
# Structural verification

A body is sound in structure when its labels are placed once and every label it refers to is
placed, its handlers do not end before they start, its locals lie within the declared number, and
control cannot run off its end. The checks are made in a fixed order and the first that fails is
reported.
-/

namespace Resumable

/-- Why a method or class is rejected. Methods are named by their signature. -/
inductive VerifyError where
  | descriptor (method : String) (cause : DescriptorError)
  | duplicateLabel (method : String) (label : Label)
  | undefinedLabel (method : String) (label : Label)
  | invertedHandler (method : String) (start stop : Label)
  | localOutOfRange (method : String) (index max : UInt16) (offset : Nat)
  | tooFewLocals (method : String) (max : UInt16) (needed : Nat)
  | unexpectedBody (method : String)
  | fallsOffEnd (method : String) (offset : Nat)
  | duplicateMethod (name desc : String)
  deriving DecidableEq, Repr

def VerifyError.message : VerifyError → String
  | .descriptor method cause => s!"Method {method}: {cause.message}"
  | .duplicateLabel method label => s!"Method {method}: label {label} defined more than once"
  | .undefinedLabel method label => s!"Method {method}: undefined label {label}"
  | .invertedHandler method start stop =>
    s!"Method {method}: handler range {start}..{stop} is inverted"
  | .localOutOfRange method index max offset =>
    s!"Method {method}: local {index} out of range (max_locals {max}) at instruction {offset}"
  | .tooFewLocals method max needed =>
    s!"Method {method}: max_locals {max} too small for {needed} parameter slots"
  | .unexpectedBody method => s!"Method {method}: abstract or native method has a body"
  | .fallsOffEnd method offset =>
    s!"Method {method}: execution falls off end at instruction {offset}"
  | .duplicateMethod name desc => s!"Duplicate method {name}{desc}"

/-- The index of the last instruction that places `l`. -/
def labelPosition? (code : List Instr) (l : Label) : Option Nat :=
  (code.zipIdx.reverse.find? fun (i, _) => i == .label l).map (·.2)

/-- The labels that the code places, in order. -/
def placedLabels (code : List Instr) : List Label :=
  code.filterMap fun
    | .label l => some l
    | _ => none

/-- The first entry that has occurred before. -/
def firstRepeated? {α : Type} [BEq α] : (seen : List α) → List α → Option α
  | _, [] => none
  | seen, a :: rest => if seen.contains a then some a else firstRepeated? (a :: seen) rest

namespace Method

/-- The position of a label that the method refers to. -/
def resolve (m : Method) (l : Label) : Except VerifyError Nat :=
  match labelPosition? m.code l with
  | some position => .ok position
  | none => .error (.undefinedLabel m.signature l)

/-- The targets of an instruction are placed, and its local exists. -/
def verifyInstr (m : Method) (offset : Nat) (i : Instr) : Except VerifyError Unit := do
  for target in i.branchTargets do
    let _ ← m.resolve target
  match i.localIndex? with
  | some index =>
    if m.maxLocals ≤ index then
      throw (.localOutOfRange m.signature index m.maxLocals offset)
  | none => pure ()

/-- The labels of a handler are placed, its end not in front of its start. -/
def verifyHandler (m : Method) (h : Handler) : Except VerifyError Unit := do
  let start ← m.resolve h.start
  let stop ← m.resolve h.stop
  let _ ← m.resolve h.target
  if stop < start then throw (.invertedHandler m.signature h.start h.stop)

/-- The last instruction that is not a label, with its index. -/
def lastInstr? (m : Method) : Option (Instr × Nat) :=
  m.code.zipIdx.reverse.find? fun (i, _) => !i.isLabel

/-- The last instruction does not let control pass. -/
def verifyEnd (m : Method) : Except VerifyError Unit :=
  match m.lastInstr? with
  | some (i, offset) =>
    if i.opcode.isTerminator then .ok () else .error (.fallsOffEnd m.signature offset)
  | none => .error (.fallsOffEnd m.signature 0)

/-- How many locals hold the receiver and the arguments on entry. -/
def entryLocals (m : Method) (type : MethodType) : Nat :=
  type.arity + if m.isStatic then 0 else 1

/-- Checks one method. A body may always be left out. -/
def verify (m : Method) : Except VerifyError Unit := do
  let type ← (MethodType.parse m.desc).mapError (.descriptor m.signature)
  if m.isBodyless then
    if m.code.isEmpty then return
    throw (.unexpectedBody m.signature)
  if m.code.isEmpty then return
  let needed := m.entryLocals type
  if m.maxLocals.toNat < needed then
    throw (.tooFewLocals m.signature m.maxLocals needed)
  match firstRepeated? [] (placedLabels m.code) with
  | some label => throw (.duplicateLabel m.signature label)
  | none => pure ()
  for (i, offset) in m.code.zipIdx do
    m.verifyInstr offset i
  for h in m.handlers do
    m.verifyHandler h
  m.verifyEnd

end Method

/-- Checks methods in order, of which `seen` are those already checked. -/
def verifyMethods : (seen : List (String × String)) → List Method → Except VerifyError Unit
  | _, [] => .ok ()
  | seen, m :: rest => do
    if seen.contains (m.name, m.desc) then throw (.duplicateMethod m.name m.desc)
    m.verify
    verifyMethods ((m.name, m.desc) :: seen) rest

/-- Checks every method of a class, and that no two share name and descriptor. -/
def ClassDef.verify (c : ClassDef) : Except VerifyError Unit :=
  verifyMethods [] c.methods

end Resumable
