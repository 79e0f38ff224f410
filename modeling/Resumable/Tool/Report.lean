import Resumable.ClassDef.Listing
import Resumable.Disk.UnitFile
import Resumable.Instrument.Class

/-!
# Reports on units

Which units have work to do, as lines of text or as one JSON text, and what is in a unit.
-/

namespace Resumable

/-- Where a unit stands. -/
inductive UnitStatus where
  | needsWork
  | marked
  | clean
  | invalid (why : InstrumentError)
  deriving DecidableEq, Repr

namespace UnitStatus

def ofClass (c : ClassDef) : UnitStatus :=
  match c.checkHeads with
  | .error e => .invalid e
  | .ok () => if c.isMarked then .marked else if c.needsWork then .needsWork else .clean

def text : UnitStatus → String
  | .needsWork => "needs instrumentation"
  | .marked => "already instrumented"
  | .clean => "clean"
  | .invalid why => s!"invalid: {why.message}"

/-- The word for a status in JSON. -/
def tag : UnitStatus → String
  | .needsWork => "needs-instrumentation"
  | .marked => "already-instrumented"
  | .clean => "clean"
  | .invalid _ => "invalid"

def reason? : UnitStatus → Option String
  | .invalid why => some why.message
  | _ => none

end UnitStatus

/-- The status of each unit, in the order of paths. -/
def checkUnits (t : FileTree) (inputs : List Path) :
    Except FileError (List (String × UnitStatus)) := do
  (← t.collect inputs).mapM fun p => do
    let (c, _) ← t.readUnit p
    return (c.name, .ofClass c)

/-- A line for each unit. -/
def statusText (statuses : List (String × UnitStatus)) : String :=
  String.join (statuses.map fun (name, status) => s!"{name}: {status.text}\n")

def statusJson (statuses : List (String × UnitStatus)) : Json :=
  .obj [("units", .arr (statuses.map fun (name, status) =>
    .obj [("class", .str name), ("reason", .str? status.reason?), ("status", .str status.tag)]))]

/-- What is in a unit, as a listing or as JSON. -/
def showUnit (t : FileTree) (p : Path) (asJson : Bool) : Except FileError String := do
  let (c, _) ← t.readUnit p
  return if asJson then c.toJson.pretty else renderListing c.listing

end Resumable
