import Resumable.Coroutine.ScriptJson
import Resumable.Machine.Bench

/-!
# The JSON form of bench work

A step is an object with its word under `do` and its arguments under their names; arguments of a call
may be left out if there are none. What a step comes to is written as plainly as it goes; only the
result of a task stands in an object of its own, so that it cannot be taken for a failure.
-/

namespace Resumable

open Json (Decoder Draft Fault)

/-! ### Reading -/

namespace Json.Decoder

/-- The arguments of a call. -/
def arguments : Decoder (List Literal) := fun d =>
  return (← keyed? "args" (list literal) d).getD []

/-- The method that a call names. -/
def calledMember : Decoder MemberRef := fun d =>
  return ⟨← keyed "owner" string d, ← keyed "name" string d, ← keyed "desc" string d⟩

def staticEntry : Decoder EntryPoint := fun d =>
  return .static (← calledMember d) (← arguments d)

def virtualEntry : Decoder EntryPoint := fun d =>
  return .virtual (← keyed "on" literal d) (← keyed "name" string d) (← keyed "desc" string d)
    (← arguments d)

/-- A body: virtual if there is a receiver. -/
def entryPoint : Decoder EntryPoint := fun d =>
  match d.member? "on" with
  | some _ => virtualEntry d
  | none => staticEntry d

/-- A task, if the word is for one. -/
def task? (word : String) (d : Draft) : Option (Except Fault Task) :=
  match word with
  | "static" => some (.call <$> staticEntry d)
  | "virtual" => some (.call <$> virtualEntry d)
  | "invoke" => some do
    return .invoke (← keyed "kind" opcode d) (← calledMember d) (← arguments d)
  | "new" => some do
    return .create (← keyed "class" string d) (← keyed "desc" string d) (← arguments d)
  | "exception" => some do
    return .exception (← keyed "class" string d) (← keyed "message" string d)
  | "throw" => some do return .throw (← keyed "class" string d) (← keyed "message" string d)
  | "let" => some (.value <$> keyed "value" literal d)
  | _ => none

def benchStep : Decoder BenchStep := fun d => do
  let word ← keyed "do" string d
  match task? word d with
  | some task => return .evaluate (← task) (← keyed? "as" string d)
  | none =>
    let coroutine := keyed "co" count d
    let iterator := keyed "it" count d
    match word with
    | "display" => return .display (← keyed "value" literal d)
    | "same" => return .isSame (← keyed "a" literal d) (← keyed "b" literal d)
    | "get_static" => return .getStatic (← keyed "owner" string d) (← keyed "name" string d)
    | "set_static" =>
      return .setStatic (← keyed "owner" string d) (← keyed "name" string d)
        (← keyed "value" literal d)
    | "has_class" => return .hasClass (← keyed "class" string d)
    | "is_subclass" => return .isSubclass (← keyed "class" string d) (← keyed "ty" string d)
    | "is_instance" => return .isInstance (← keyed "value" literal d) (← keyed "ty" string d)
    | "load" => return .load (← keyed "unit" (classDef .named) d)
    | "install" => return .install (← keyed "units" (list (classDef .named)) d)
    | "co" => return .newCoroutine (← entryPoint d) (← keyed? "size" count d)
    | "run" => return .run (← coroutine)
    | "drain" => return .drain (← coroutine) (← keyed "max" count d)
    | "snapshot" => return .capture (← coroutine)
    | "restore" =>
      let body ← match d.member? "name" with
        | some _ => some <$> entryPoint d
        | none => pure none
      return .rebuild (← coroutine) (← keyed? "text" string d) body
    | "iter" => return .newIterator (← entryPoint d) (← keyed? "size" count d)
    | "has_next" => return .hasNext (← iterator)
    | "take" => return .take (← iterator)
    | "next" => return .next (← iterator)
    | "it_state" => return .iteratorState (← iterator)
    | "it_snapshot" => return .captureIterator (← iterator)
    | "it_restore" => return .rebuildIterator (← iterator)
    | _ => throw (.unknownTag word)

end Json.Decoder

/-! ### Writing -/

/-- The word for the kind of an error in reports. -/
def InstrumentError.kind : InstrumentError → String
  | .unable .. => "Unable"
  | .analysis .. => "Analysis"
  | .descriptor _ => "Descriptor"

def InstrumentError.toJson (e : InstrumentError) : Json :=
  .obj [("error", .str e.kind), ("message", .str e.message)]

/-- The word for a category in reports. -/
def Json.Category.name : Json.Category → String
  | .malformed => "syntax"
  | .ended => "eof"
  | .unsuitable => "data"

/-- A report that a text could not be read. -/
def Json.Fault.toJson (f : Fault) : Json :=
  .obj [("error", .str "Json"), ("category", .str f.category.name)]

namespace RunRecord

def outcomeJson (r : RunRecord) : Json := RunError.report r.heap (fun _ => .null) r.outcome

/-- A run with the coroutine after it. -/
def toJson (r : RunRecord) : Json := .arr [r.outcomeJson, r.coroutine.summary]

/-- A run with the state of the coroutine, the number of its frames, and the trace. -/
def brief (r : RunRecord) : Json :=
  .arr [r.outcomeJson, .str r.coroutine.state.name, .nat r.coroutine.stack.frames.length,
    .arr (r.trace.map .str)]

end RunRecord

/-- The checksum of a class, and whether it passes verification. -/
def ClassDef.installed (c : ClassDef) : Json :=
  .arr [.nat (Binary.checksum (Binary.ofClass c)).toNat, .bool (c.verify matches .ok _)]

def BenchStop.toJson (h : Heap) : BenchStop → Json
  | .failed e => e.toJson h
  | .refused e => e.toJson
  | .unreadable fault => fault.toJson
  | .noSnapshot => .obj [("error", .str "NoSnapshot")]
  | .unfinished => .obj [("error", .str "Unfinished")]

def BenchReply.toJson (h : Heap) : BenchReply → Json
  | .nothing => .null
  | .flag b => .bool b
  | .text s => .str s
  | .value v => h.dump v
  | .result v => .obj [("ok", (v.map h.dump).getD .null)]
  | .installed units => .arr (units.map fun
    | .ok c => c.installed
    | .error stop => stop.toJson h)
  | .coroutine c => c.summary
  | .ran record => record.toJson
  | .drained records => .arr (records.map RunRecord.brief)

/-- What a step came to on a bench. -/
def Bench.report (b : Bench) : Except BenchStop BenchReply → Json
  | .ok reply => reply.toJson b.heap
  | .error stop => stop.toJson b.heap

end Resumable
