import Resumable.Instrument.Body

/-!
# Classes

A class is first checked by the heads of its methods alone: its facts go into the database, and if
it has work to do it is put on the work list. Later its methods are instrumented one by one. A class
that was instrumented carries a marker and is left alone from then on.
-/

namespace Resumable

/-- The method declares that it may suspend. -/
def Method.isSuspendable (m : Method) : Bool := m.declares Names.suspendExecution

/-- The method has a body to transform. The suspend call itself has not. -/
def Method.isCandidate (m : Method) (owner : String) : Bool :=
  m.isSuspendable && !m.isBodyless && !(owner == Names.coroutine && m.name == Names.yieldName)

namespace ClassDef

def isMarked (c : ClassDef) : Bool := c.hasMarker Names.instrumented

/-- Some method of the class may suspend. -/
def needsWork (c : ClassDef) : Bool := c.methods.any Method.isSuspendable

/-- A method that may suspend must not hold a monitor. -/
def checkHeads (c : ClassDef) : Except InstrumentError Unit :=
  match c.methods.find? fun m => m.isSuspendable && m.isSynchronized with
  | some m => .error (.unable .synchronizedMethod c.name m.name m.desc)
  | none => .ok ()

end ClassDef

namespace Inquiry

/-- The checks of a class, and its facts for the database. -/
def enroll (c : ClassDef) : Flow.Attempt Unit := do
  match c.checkHeads with
  | .error e => throw e
  | .ok () => modify fun db => db.record c.name (.known (.ofClass c))

/-- Checks a class of the batch. Says whether it was put on the work list. -/
def check (c : ClassDef) : Flow.Attempt Bool := do
  enroll c
  if !c.needsWork then return false
  if c.isMarked && !(← getThe Database).options.force then
    log .info (.foundInstrumented c.name)
    return false
  log .info (.found c.name)
  modify fun db => { db with workList := db.workList ++ [c.name] }
  return true

/-- The re-entrant form of a candidate. -/
def instrumentCandidate (owner : String) (m : Method) : Flow.Attempt Method := do
  let a ← Analysed.of owner m
  let (plan, outcome) ← (a.plan : Inquiry _)
  match outcome with
  | .error e => throw e
  | .ok () =>
    if plan.points.isEmpty then return m
    if Names.isSpecial m.name then throw (a.unable .specialMethod)
    a.body plan

/-- One method of a class: transformed if it is a candidate. -/
def instrumentMember (owner : String) (m : Method) : Flow.Attempt Method := do
  if !m.isCandidate owner then return m
  if (← getThe Database).options.debug then log .info (.instrumentingMember owner m.name)
  instrumentCandidate owner m

/-- The class with all its candidates transformed, and marked if it has any. The first method that
cannot be transformed fails the class. -/
def instrument (c : ClassDef) : Flow.Attempt ClassDef := do
  enroll c
  if !c.methods.any (·.isCandidate c.name) then return c
  if c.isMarked && !(← getThe Database).options.force then
    log .info (.skipped c.name)
    return c
  let methods ← c.methods.mapM (instrumentMember c.name)
  let markers := if c.isMarked then c.markers else c.markers ++ [Names.instrumented]
  return { c with methods, markers }

end Inquiry

end Resumable
