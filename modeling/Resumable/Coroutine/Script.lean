import Resumable.Coroutine.SnapshotJson
import Resumable.Coroutine.Iteration
import Resumable.Value.Json

/-!
# Scripted coroutines

A script says, step by step, what the body of a coroutine does in each of its runs: it works on its
frames and variables, runs other coroutines, offers elements, suspends or fails. A run ends with the
first step that fails; what each step came to is recorded.

Coroutines that run each other nest, and each of them at most once, since a running coroutine is
refused. So nesting is never deeper than the number of coroutines, which bounds the recursion of
`Scene.runWithin`.
-/

namespace Resumable

/-- A step on a stack of frames. -/
inductive StackStep where
  | enter
  | reserve (resumeIndex : UInt32) (slots : UInt64)
  | release
  | rewind
  | save (kind : SlotKind) (slot : UInt32) (value : Literal)
  | restore (kind : SlotKind) (slot : UInt32)
  /-- Looks at a frame. -/
  | frame (index : Nat)
  /-- Binds a name. -/
  | bind (name : String) (value : Literal)
  | setField (target : Literal) (name : String) (value : Literal)
  | setItem (target : Literal) (index : Nat) (value : Literal)
  | snapshot
  /-- Replaces the stack by a copy that is rebuilt from its snapshot. -/
  | reload
  | describe
  deriving Inhabited

/-- A step of a body. -/
inductive BodyStep where
  | stack (step : StackStep)
  /-- Leaves the run by the suspension signal. -/
  | suspend
  /-- Leaves the run by an error. -/
  | fail (error : RunError)
  /-- Leaves the run by a new object that has the class of the signal. -/
  | counterfeit
  /-- Runs a coroutine and goes on, whatever it came to. -/
  | run (k : Nat)
  /-- Runs a coroutine and fails if it fails. -/
  | runOrFail (k : Nat)
  | state (k : Nat)
  | capture (k : Nat)
  /-- Which coroutine is active. -/
  | current
  | get (key : Nat)
  | set (key : Nat) (value : Int)
  | remove (key : Nat)
  | drop (key : Nat)
  /-- Offers an element. -/
  | produce (element : Int)
  deriving Inhabited

/-- The word for a step in reports. -/
def StackStep.name : StackStep → String
  | .enter => "entry"
  | .reserve .. => "reserve"
  | .release => "release"
  | .rewind => "resume"
  | .save .. => "save"
  | .restore .. => "restore"
  | .frame _ => "frame"
  | .bind .. => "let"
  | .setField .. => "set_field"
  | .setItem .. => "set_item"
  | .snapshot => "snapshot"
  | .reload => "reload"
  | .describe => "debug"

def BodyStep.name : BodyStep → String
  | .stack step => step.name
  | .suspend => "suspend"
  | .fail _ => "fail"
  | .counterfeit => "fake"
  | .run _ => "run"
  | .runOrFail _ => "try_run"
  | .state _ => "state"
  | .capture _ => "co_snapshot"
  | .current => "current"
  | .get _ => "get"
  | .set .. => "set"
  | .remove _ => "remove"
  | .drop _ => "drop"
  | .produce _ => "produce"

/-- What a step came to. -/
inductive Reply where
  | nothing
  | number (value : Int)
  | flag (value : Bool)
  | value (value : Value)
  | text (value : String)
  | frame (frame : FrameMark)
  | state (state : CoroutineState)
  /-- The failure of a coroutine that was run or captured on the way; the run goes on. -/
  | failed (error : RunError)
  /-- An element, or the failure of the coroutine that should have offered it. -/
  | element (outcome : Except RunError Int)
  /-- A new coroutine, rebuilt from a snapshot. -/
  | rebuilt (k : Nat)
  /-- There is no snapshot to rebuild from. -/
  | noSnapshot
  /-- The answer did not come in time. -/
  | unfinished

/-- A body: what it does in each of its runs, and how often it has run. In later runs it does
nothing. -/
structure Body where
  runs : List (List BodyStep)
  count : Nat := 0
  /-- The element that has been offered and not taken. -/
  pending : Option Int := none
  deriving Inhabited

/-- A step that was made, what it came to, and the heap at that time. -/
structure Event where
  step : BodyStep
  outcome : Except RunError Reply
  heap : Heap

/-- Scripted coroutines and everything that they work on. -/
structure Scene where
  heap : Heap := .initial
  coroutines : Coroutines := {}
  /-- The body of each coroutine. -/
  bodies : Array Body := #[]
  vars : Variables
  bindings : Bindings := []
  /-- Whether scripts know the coroutines, by their numbers. -/
  isNumbered : Bool := true
  captured : List (Nat × CoroutineSnapshot) := []
  /-- What has happened, the latest first. -/
  events : List Event := []

namespace StackStep

/-- Makes a step on a stack. -/
def perform (step : StackStep) (h : Heap) (b : Bindings) (s : FrameStack) :
    Except RunError ((Reply × Heap × Bindings) × FrameStack) :=
  match step with
  | .enter =>
    let (index, s) := s.enter
    .ok ((.number index.toNat, h, b), s)
  | .reserve resumeIndex slots => return ((.nothing, h, b), ← s.reserve resumeIndex slots)
  | .release => return ((.nothing, h, b), ← s.release)
  | .rewind => .ok ((.nothing, h, b), s.rewind)
  | .save kind slot literal => do
    let (h, v) := literal.build b h
    return ((.nothing, h, b), ← s.save kind slot v)
  | .restore kind slot => return ((.value (← s.restore kind slot), h, b), s)
  | .frame index => .ok (((s.frames[index]?.map Reply.frame).getD .nothing, h, b), s)
  | .bind name literal =>
    let (h, v) := literal.build b h
    .ok ((.nothing, h, (name, v) :: b), s)
  | .setField target name literal =>
    let (h, t) := target.build b h
    let (h, v) := literal.build b h
    match t with
    | .object id => .ok ((.nothing, h.setField id name v, b), s)
    | _ => .error (.type (.expectedFound "object" t.typeName))
  | .setItem target index literal =>
    let (h, t) := target.build b h
    let (h, v) := literal.build b h
    match t with
    | .array id => .ok ((.nothing, h.setItem id index v, b), s)
    | _ => .error (.type (.expectedFound "array" t.typeName))
  | .snapshot => .ok ((.text (s.snapshot h).toJson.compact, h, b), s)
  | .reload => do
    let (h, s) ← (s.snapshot h).rebuild h
    return ((.nothing, h, b), s)
  | .describe => .ok ((.text s.describe, h, b), s)

/-- Makes steps one after the other, whether they fail or not: what each came to, with the heap and
the stack after it. -/
def trace : List StackStep → Heap → Bindings → FrameStack →
    List (Except RunError Reply × Heap × FrameStack)
  | [], _, _, _ => []
  | step :: rest, h, b, s =>
    match step.perform h b s with
    | .ok ((reply, h, b), s) => (.ok reply, h, s) :: trace rest h b s
    | .error e => (.error e, h, s) :: trace rest h b s

end StackStep

namespace Scene

/-- Adds a coroutine with its body. -/
def add (s : Scene) (c : Coroutine) (runs : List (List BodyStep)) : Scene :=
  { s with coroutines := s.coroutines.add c, bodies := s.bodies.push { runs } }

def modifyBody (s : Scene) (k : Nat) (f : Body → Body) : Scene :=
  { s with bodies := s.bodies.modify k f }

/-- The number that a script gives to a coroutine, if it is one. -/
def number? (s : Scene) (k : Nat) : Option Nat :=
  if s.isNumbered && k < s.coroutines.all.size then some k else none

/-- The coroutine that a script means by a number. -/
def coroutine (s : Scene) (k : Nat) : Except RunError Coroutine :=
  match (s.number? k).bind (s.coroutines.all[·]?) with
  | some c => .ok c
  | none => .error (.noSuchClass (toString k))

/-- Records what a step came to. -/
def note (s : Scene) (step : BodyStep) (outcome : Except RunError Reply) : Scene :=
  { s with events := ⟨step, outcome, s.heap⟩ :: s.events }

/-- Does something with the values of the active coroutine for a variable. -/
def onVariable (s : Scene) (key : Nat) (f : LocalValues → Reply × LocalValues) :
    Scene × Except RunError Reply :=
  if !s.vars.isLive key then (s, .error (.noSuchField (toString key)))
  else
    match s.coroutines.onActive fun c =>
        let (reply, locals) := f c.locals
        .ok (reply, { c with locals }) with
    | .ok (reply, coroutines) => ({ s with coroutines }, .ok reply)
    | .error e => (s, .error e)

/-- Runs the coroutine that a script means by a number; `settle` says what its failure comes to. A
number that means none is an error of the step itself. -/
def runNumber (run : Nat → Scene → Scene × Except RunError Unit) (s : Scene) (k : Nat)
    (settle : RunError → Except RunError Reply) : Scene × Except RunError Reply :=
  match s.coroutine k with
  | .error e => (s, .error e)
  | .ok _ =>
    match run k s with
    | (s, .ok ()) => (s, .ok .nothing)
    | (s, .error e) => (s, settle e)

/-- Makes a step. `run` runs another coroutine. -/
def perform (run : Nat → Scene → Scene × Except RunError Unit) (s : Scene) :
    BodyStep → Scene × Except RunError Reply
  | .stack step =>
    match s.coroutines.onStack (step.perform s.heap s.bindings) with
    | .ok ((reply, heap, bindings), coroutines) =>
      ({ s with heap, bindings, coroutines }, .ok reply)
    | .error e => (s, .error e)
  | .suspend => (s, .error .suspension)
  | .fail error => (s, .error error)
  | .counterfeit =>
    let (heap, v) := s.heap.newObject Names.suspendExecution
    ({ s with heap }, .error (.thrown v))
  | .run k => s.runNumber run k fun e => .ok (.failed e)
  | .runOrFail k => s.runNumber run k .error
  | .state k => (s, (s.coroutine k).map fun c => .state c.state)
  | .capture k => (s, do
    match (← s.coroutine k).snapshot s.heap with
    | .ok snapshot => return .text snapshot.toJson.compact
    | .error e => return .failed e)
  | .current =>
    (s, .ok (((s.coroutines.active.bind s.number?).map fun k => Reply.number k).getD .nothing))
  | .get key => s.onVariable key fun l =>
    let (value, l) := s.vars.get key l
    (.number value, l)
  | .set key value => s.onVariable key fun l => (.nothing, s.vars.put key value l)
  | .remove key => s.onVariable key fun l =>
    let (value, l) := Variables.remove key l
    ((value.map Reply.number).getD .nothing, l)
  | .drop key => ({ s with vars := s.vars.drop key }, .ok .nothing)
  | .produce element =>
    match s.coroutines.active with
    | none => (s, .error (.invalidState .noCoroutine))
    | some k =>
      match offer ((s.bodies[k]?.getD default).pending) element with
      | .error e => (s, .ok (.failed e))
      | .ok pending => (s.modifyBody k ({ · with pending }), .ok .nothing)

/-- Makes the steps of a run up to the first that fails. -/
def performAll (run : Nat → Scene → Scene × Except RunError Unit) :
    List BodyStep → Scene → Scene × Except RunError Unit
  | [], s => (s, .ok ())
  | step :: rest, s =>
    match s.perform run step with
    | (s, .ok reply) => performAll run rest (s.note step (.ok reply))
    | (s, .error e) => (s.note step (.error e), .error e)

/-- What the body of a coroutine does next. -/
def nextRun (s : Scene) (k : Nat) : List BodyStep :=
  let body := s.bodies[k]?.getD default
  body.runs[body.count]?.getD []

/-- Runs a coroutine with at most `depth` coroutines inside each other. -/
def runWithin : (depth k : Nat) → Scene → Scene × Except RunError Unit
  | 0, k, s =>
    match s.coroutines.begin k with
    | .error e => (s, .error e)
    | .ok _ => (s, .error (.invalidState .notRunnable))
  | depth + 1, k, s =>
    match s.coroutines.begin k with
    | .error e => (s, .error e)
    | .ok coroutines =>
      let started := { s with coroutines }.modifyBody k fun b => { b with count := b.count + 1 }
      let (ended, outcome) := performAll (runWithin depth) (s.nextRun k) started
      let (coroutines, outcome) := ended.coroutines.conclude k s.coroutines.active outcome
      ({ ended with coroutines }, outcome)

/-- Runs a coroutine until its body suspends, ends or fails. -/
def run (s : Scene) (k : Nat) : Scene × Except RunError Unit :=
  s.runWithin s.coroutines.all.size k

end Scene

/-- What is done with a scene from outside. -/
inductive SceneCommand where
  | step (step : BodyStep)
  /-- Captures a coroutine and keeps the snapshot. -/
  | capture (k : Nat)
  /-- Rebuilds the snapshot that was kept of a coroutine, with a new body. -/
  | rebuild (k : Nat) (runs : List (List BodyStep))
  | hasNext (k : Nat)
  | take (k : Nat)
  | next (k : Nat)
  /-- Captures an iterator without an element and keeps the snapshot. -/
  | captureIdle (k : Nat)
  /-- Rebuilds the latest snapshot. -/
  | rebuildLatest (runs : List (List BodyStep))

namespace Scene

/-- The elements that a scripted body offers. -/
def iteration (k : Nat) : Iteration Scene Int where
  state s := (s.coroutines.state? k).getD .finished
  pending s := (s.bodies[k]?.getD default).pending
  clear s := s.modifyBody k ({ · with pending := none })
  run s := some (s.run k)

/-- How often a body is run at most before it ends: all the runs that are left, and one in which
it does nothing. -/
def runsLeft (s : Scene) (k : Nat) : Nat :=
  let body := s.bodies[k]?.getD default
  body.runs.length - body.count + 1

/-- Captures a coroutine and keeps the snapshot. -/
def capture (s : Scene) (k : Nat) (c : Coroutine) : Scene × Except RunError Reply :=
  match c.snapshot s.heap with
  | .error e => (s, .error e)
  | .ok snapshot =>
    ({ s with captured := (k, snapshot) :: s.captured }, .ok (.text snapshot.toJson.compact))

/-- Rebuilds a snapshot with a new body. -/
def rebuild (s : Scene) (snapshot : Option CoroutineSnapshot) (runs : List (List BodyStep)) :
    Scene × Except RunError Reply :=
  match snapshot with
  | none => (s, .ok .noSnapshot)
  | some snapshot =>
    match snapshot.rebuild s.heap with
    | .error e => (s, .error e)
    | .ok (heap, c) => ({ s with heap }.add c runs, .ok (.rebuilt s.coroutines.all.size))

/-- What an iterator came to. -/
def answer {α : Type} (s : Scene) (f : α → Except RunError Reply) :
    Option (Scene × α) → Scene × Except RunError Reply
  | some (s, a) => (s, f a)
  | none => (s, .ok .unfinished)

/-- Does something with an iterator, if there is one with the number. -/
def onIterator (s : Scene) (k : Nat) (f : Coroutine → Scene × Except RunError Reply) :
    Scene × Except RunError Reply :=
  match s.coroutines.all[k]? with
  | some c => f c
  | none => (s, .error (.noSuchClass (toString k)))

/-- Carries out a command. -/
def execute (s : Scene) : SceneCommand → Scene × Except RunError Reply
  | .step step => s.perform (fun k s => s.run k) step
  | .capture k =>
    match s.coroutine k with
    | .ok c => s.capture k c
    | .error e => (s, .error e)
  | .rebuild k runs => s.rebuild (s.captured.lookup k) runs
  | .hasNext k => s.onIterator k fun _ =>
    s.answer (·.map .flag) ((iteration k).hasNext (s.runsLeft k) s)
  | .take k => s.onIterator k fun _ =>
    s.answer (·.map .number) ((iteration k).takeNext (s.runsLeft k) s)
  | .next k => s.onIterator k fun _ =>
    s.answer (fun x => .ok ((x.map Reply.element).getD .nothing))
      ((iteration k).next? (s.runsLeft k) s)
  | .captureIdle k => s.onIterator k fun c =>
    if (s.bodies[k]?.getD default).pending.isSome then
      (s, .error (.invalidState .elementPending))
    else s.capture k c
  | .rebuildLatest runs => s.rebuild (s.captured.head?.map (·.2)) runs

/-- Carries out commands: what each came to, with the scene after it. The events of a scene are
those of the last command. -/
def trace : List SceneCommand → Scene → List (Except RunError Reply × Scene)
  | [], _ => []
  | command :: rest, s =>
    let (s, reply) := { s with events := [] }.execute command
    (reply, s) :: trace rest s

end Scene

end Resumable
