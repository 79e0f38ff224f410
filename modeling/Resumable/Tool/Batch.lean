import Resumable.Disk.UnitFile
import Resumable.Instrument.Class

/-!
# Batches

A batch of units is instrumented in two passes. The first checks every unit, so that the database
knows all of them before any body is looked at. The second writes every unit that passed: those on
the work list in their re-entrant form, all others as they are. Units are told apart by the names of
their classes.

A unit that is rejected is reported and not written; the rest of the batch goes on. A file that
cannot be read or written ends the batch, and what has been written by then stays.
-/

namespace Resumable

/-- What a batch is made of. -/
structure Batch where
  inputs : List Path
  /-- Where the units are written. -/
  target : Path
  /-- Where ancestors are looked for. -/
  classpath : List Path := []
  options : Options := {}
  deriving Repr, Inhabited

/-- What has become of the units of a batch. -/
structure BatchReport where
  transformed : List String := []
  /-- Written as they are. -/
  copied : List String := []
  failed : List (String × InstrumentError) := []
  deriving DecidableEq, Repr, Inhabited

/-- What ends a batch. -/
inductive BatchError where
  | noUnits
  | file (error : FileError)
  deriving Repr

def BatchError.message : BatchError → String
  | .noUnits => "No input units found"
  | .file error => error.message

/-- A unit of a batch, and where it comes from. -/
structure BatchUnit where
  path : Path
  content : ClassDef
  format : UnitFormat
  deriving Repr, Inhabited

/-- A batch at work. -/
structure BatchState where
  tree : FileTree
  database : Database
  report : BatchReport := {}

/-- Work on a batch. -/
abbrev BatchM := ExceptT BatchError (StateM BatchState)

namespace BatchReport

/-- The unit was rejected. -/
def rejects (r : BatchReport) (name : String) : Bool := r.failed.any (·.1 == name)

/-- One line on a batch that came to its end. -/
def summary (r : BatchReport) : String :=
  s!"Instrumented {r.transformed.length} unit(s), copied {r.copied.length} unit(s)"

/-- What to tell if units were rejected. -/
def complaint? (r : BatchReport) : Option String :=
  if r.failed.isEmpty then none
  else some s!"{r.failed.length} unit(s) could not be instrumented"

end BatchReport

namespace BatchM

def modifyReport (f : BatchReport → BatchReport) : BatchM Unit :=
  modify fun s => { s with report := f s.report }

/-- Asks the database. -/
def ask {α : Type} (question : Flow.Attempt α) : BatchM (Except InstrumentError α) := do
  let s ← get
  let (answer, database) := question.run s.database
  set { s with database }
  return answer

/-- Reports a unit that is rejected. -/
def reject (what : String) (u : BatchUnit) (e : InstrumentError) : BatchM Unit := do
  modify fun s => { s with database := s.database.logFailure s!"{what} {u.path.text}" e.message }
  modifyReport fun r => { r with failed := r.failed ++ [(u.content.name, e)] }

/-- Checks a unit. -/
def check (u : BatchUnit) : BatchM Unit := do
  match ← ask (Inquiry.check u.content) with
  | .ok _ => return
  | .error e => reject "Failed to check" u e

/-- Writes a unit in the format in which it was read. -/
def write (b : Batch) (u : BatchUnit) (c : ClassDef) : BatchM Unit := do
  let s ← get
  let (tree, written) := s.tree.writeUnit b.target c u.format
  set { s with tree }
  match written with
  | .ok () => return
  | .error e => throw (.file e)

/-- Writes a unit that passed the check, in its re-entrant form if it is on the work list. -/
def process (b : Batch) (workList : List String) (u : BatchUnit) : BatchM Unit := do
  let name := u.content.name
  if workList.contains name then
    match ← ask (Inquiry.instrument u.content) with
    | .ok c =>
      write b u c
      modifyReport fun r => { r with transformed := r.transformed ++ [name] }
    | .error e => reject "Failed to instrument" u e
  else
    write b u u.content
    modifyReport fun r => { r with copied := r.copied ++ [name] }

/-- The two passes. -/
def passes (b : Batch) (units : List BatchUnit) : BatchM Unit := do
  units.forM check
  let s ← get
  (units.filter fun u => !s.report.rejects u.content.name).forM
    (process b s.database.workList)

end BatchM

namespace Batch

/-- The units of a batch, in the order of paths. -/
def units (b : Batch) (t : FileTree) : Except BatchError (List BatchUnit) := do
  let files ← (t.collect b.inputs).mapError .file
  if files.isEmpty then throw .noUnits
  files.mapM fun path => do
    let (content, format) ← (t.readUnit path).mapError .file
    return { path, content, format }

/-- Runs a batch: how it ends, and what it leaves behind. -/
def run (b : Batch) (t : FileTree) : Except BatchError Unit × BatchState :=
  let start : BatchState :=
    { tree := t, database := .new b.options (t.resolver b.classpath) }
  match b.units t with
  | .error e => (.error e, start)
  | .ok units => StateT.run (ExceptT.run (BatchM.passes b units)) start

end Batch

end Resumable
