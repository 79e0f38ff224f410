import Resumable.Binary.ClassFile
import Resumable.Coroutine.SnapshotJson
import Resumable.Instrument.Class
import Resumable.Machine.Basic
import Resumable.Machine.BenchHost
import Resumable.Value.Literal

/-!
# The workbench

A bench has a machine and a database. Units are instrumented and loaded on it, methods are called,
and coroutines and iterators made, run, captured and rebuilt, one step after the other. Values can
be kept under names for later steps.

`Bench.perform` makes a step. A step that does not succeed ends in a `BenchStop`; what it has done
by then stays done.
-/

namespace Resumable

/-- The method with which a body starts, or which is called. -/
inductive EntryPoint where
  | static (member : MemberRef) (args : List Literal)
  | virtual (receiver : Literal) (name desc : String) (args : List Literal)
  deriving Inhabited

/-- What comes to a value. -/
inductive Task where
  | call (entry : EntryPoint)
  /-- A call as an instruction makes it, the receiver in front of the arguments. -/
  | invoke (op : Opcode) (member : MemberRef) (args : List Literal)
  /-- A new object of a loaded class, with its constructor run. -/
  | create (type desc : String) (args : List Literal)
  /-- A new exception; its class need not be loaded. -/
  | exception (type message : String)
  | throw (type message : String)
  | value (literal : Literal)
  deriving Inhabited

/-- What is done on a bench. Coroutines and iterators are known by the order in which they were
made, each kind by itself. -/
inductive BenchStep where
  /-- Carries out a task; its value is kept under a name if there is one. -/
  | evaluate (task : Task) (keep : Option String)
  | display (value : Literal)
  | isSame (a b : Literal)
  | getStatic (owner name : String)
  | setStatic (owner name : String) (value : Literal)
  | hasClass (name : String)
  | isSubclass (name ancestor : String)
  | isInstance (value : Literal) (type : String)
  | load (unit : ClassDef)
  | install (units : List ClassDef)
  | newCoroutine (body : EntryPoint) (size : Option Nat)
  | run (k : Nat)
  /-- Runs a coroutine until it is finished, but at most `max` times. -/
  | drain (k max : Nat)
  | capture (k : Nat)
  /-- A new coroutine from a text or from the snapshot that was captured of `k`, with a body of its
  own or with that of `k`. -/
  | rebuild (k : Nat) (text : Option String) (body : Option EntryPoint)
  | newIterator (body : EntryPoint) (size : Option Nat)
  | hasNext (k : Nat)
  | take (k : Nat)
  | next (k : Nat)
  | iteratorState (k : Nat)
  | captureIterator (k : Nat)
  /-- A new iterator from the latest snapshot of any, with the body of `k`. -/
  | rebuildIterator (k : Nat)
  deriving Inhabited

/-- A run of a coroutine: what it came to, the coroutine, the heap and the trace after it. -/
structure RunRecord where
  outcome : Except RunError Unit
  coroutine : Coroutine
  heap : Heap
  trace : List String
  deriving Inhabited

/-- Why a step does not succeed. -/
inductive BenchStop where
  | failed (error : RunError)
  | refused (error : InstrumentError)
  /-- A text is no snapshot. -/
  | unreadable (fault : Json.Fault)
  /-- Nothing has been captured that could be rebuilt. -/
  | noSnapshot
  /-- The machine has made too many steps. -/
  | unfinished
  deriving Inhabited

/-- What a step comes to. -/
inductive BenchReply where
  | nothing
  | flag (value : Bool)
  | text (value : String)
  | value (value : Value)
  /-- The result of a task. -/
  | result (value : Option Value)
  /-- What became of each unit: the class that was loaded, or why there is none. -/
  | installed (units : List (Except BenchStop ClassDef))
  | coroutine (c : Coroutine)
  | ran (record : RunRecord)
  | drained (records : List RunRecord)
  deriving Inhabited

/-- A machine, a database, and what is kept between steps. -/
structure Bench where
  machine : Machine benchHost
  database : Database
  bindings : Bindings := []
  /-- The latest snapshot of each coroutine. -/
  captured : List (Nat × CoroutineSnapshot) := []
  capturedIterator : Option CoroutineSnapshot := none

namespace BenchMethod

/-- What is known of the classes that the bench gives methods to: none of them suspends. -/
def benchFacts : List (String × ClassFacts) :=
  let members := (bench ++ [generator]).map (·.1)
  (members.map (·.owner)).eraseDups.map fun owner =>
    (owner, (members.filter (·.owner == owner)).foldl (fun f m => f.set m.name m.desc false)
      { superName := some Names.object })

end BenchMethod

namespace Bench

/-- A bench on which nothing has been done. -/
def new (options : Options) (resolver : Resolver) : Bench where
  machine := { host := { own := {} }, natives := BenchMethod.platform ++ BenchMethod.bench }
  database := BenchMethod.benchFacts.foldl (fun db (name, facts) => db.record name (.known facts))
    (.new options resolver)

def memory (b : Bench) : Memory := b.machine.memory

def heap (b : Bench) : Heap := b.memory.heap

def trace (b : Bench) : List String := b.machine.host.own.trace.toList

def withMemory (b : Bench) (memory : Memory) : Bench :=
  { b with machine := b.machine.withMemory memory }

def withOwn (b : Bench) (f : BenchState → BenchState) : Bench :=
  { b with machine := { b.machine with host.own := f b.machine.host.own } }

/-- How many steps the machine may make for one request. -/
def limit : Nat := 1 <<< 40

end Bench

/-- Work on a bench. -/
abbrev BenchM := ExceptT BenchStop (StateM Bench)

namespace BenchM

/-- Does the work on a bench. -/
def on {α : Type} (work : BenchM α) (b : Bench) : Except BenchStop α × Bench :=
  StateT.run (ExceptT.run work) b

def fail {α : Type} (e : RunError) : BenchM α := throw (.failed e)

/-- The value of an outcome. -/
def orFail {α : Type} : Except RunError α → BenchM α
  | .ok a => pure a
  | .error e => fail e

/-- Asks the database. -/
def ask {α : Type} (question : Flow.Attempt α) : BenchM α := do
  let b ← get
  let (answer, database) := question.run b.database
  set { b with database }
  match answer with
  | .ok a => return a
  | .error e => throw (.refused e)

/-! ### Values -/

/-- Makes something on the heap. -/
def onHeap {α : Type} (f : Heap → Heap × α) : BenchM α := do
  let b ← get
  let (heap, a) := f b.heap
  set (b.withMemory { b.memory with heap })
  return a

def build (l : Literal) : BenchM Value := do
  let bindings := (← get).bindings
  onHeap (l.build bindings)

def buildAll (ls : List Literal) : BenchM (List Value) := do
  let bindings := (← get).bindings
  onHeap (Literal.buildAll bindings ls)

/-- The body that starts with a method. -/
def body : EntryPoint → BenchM CoroutineBody
  | .static member args => return .static member (← buildAll args)
  | .virtual receiver name desc args => do
    return .virtual (← build receiver) name desc (← buildAll args)

/-! ### Requests to the machine -/

/-- What a request comes to. -/
def observe (request : Request) : BenchM (Except RunError (Option Value)) := do
  let b ← get
  match b.machine.perform? Bench.limit request with
  | none => throw .unfinished
  | some (machine, outcome) =>
    set { b with machine }
    return outcome

def request (r : Request) : BenchM (Option Value) := do orFail (← observe r)

def carryOut : Task → BenchM (Option Value)
  | .call entry => do request (← body entry).request
  | .invoke op member args => do request (.call ⟨op, member, ← buildAll args⟩)
  | .create type desc args => do
    let args ← buildAll args
    if !(← get).machine.classes.contains type then fail (.noSuchClass type)
    let v ← onHeap (·.newObject type)
    let _ ← request (.call ⟨.invokespecial, ⟨type, Names.constructor, desc⟩, v :: args⟩)
    return some v
  | .exception type message => some <$> onHeap (·.newException type message)
  | .throw type message => do fail (.thrown (← onHeap (·.newException type message)))
  | .value literal => some <$> build literal

/-- Keeps a value under a name. -/
def keep (name : Option String) (v : Value) : BenchM Unit :=
  match name with
  | none => return
  | some name => modify fun b => { b with bindings := (name, v) :: b.bindings }

/-- Carries out a task and keeps its value, or the exception that it throws. Without either, what
was kept stays. -/
def evaluate (task : Task) (name : Option String) : BenchM (Option Value) :=
  tryCatchThe BenchStop
    (do
      let result ← carryOut task
      result.forM (keep name)
      return result)
    fun stop => do
      if let .failed (.thrown v) := stop then keep name v
      throw stop

/-! ### Units -/

def load (c : ClassDef) : BenchM Unit := do
  let classes ← orFail ((← get).machine.classes.load c)
  modify fun b => { b with machine := { b.machine with classes } }

/-- Does work that may stop; what it has done by then stays done. -/
def attempt {α : Type} (work : BenchM α) : BenchM (Except BenchStop α) :=
  tryCatchThe BenchStop (.ok <$> work) fun stop => return .error stop

/-- Checks units, then instruments and loads one by one those that have passed. A unit that stops
does not keep the others back. -/
def install (units : List ClassDef) : BenchM (List (Except BenchStop ClassDef)) := do
  let checks ← units.mapM fun c => attempt (ask (Inquiry.check c))
  (units.zip checks).mapM fun (c, check) => attempt do
    if let .error stop := check then throw stop
    let c ← ask (Inquiry.instrument c)
    load c
    return c

/-! ### Coroutines -/

/-- Adds a coroutine with its body. Gives its number in the machine. -/
def add (c : Coroutine) (body : CoroutineBody) : BenchM Nat := do
  let b ← get
  let coroutines := b.memory.coroutines
  set { b with machine :=
    { b.machine.withMemory { b.memory with coroutines := coroutines.add c } with
      bodies := b.machine.bodies.push body } }
  return coroutines.all.size

/-- The number in the machine of a coroutine. -/
def number (k : Nat) : BenchM Nat := do orFail ((← get).machine.host.own.coroutine k)

/-- The coroutine with a number in the machine. -/
def coroutine (c : Nat) : BenchM Coroutine := do
  return (← get).memory.coroutines.all[c]?.getD default

def bodyOf (c : Nat) : BenchM CoroutineBody := do return (← get).machine.bodies[c]?.getD default

/-- Adds a coroutine that programs know. -/
def enlist (c : Coroutine) (body : CoroutineBody) : BenchM Unit := do
  let c ← add c body
  modify fun b => b.withOwn fun s => { s with directory := s.directory.push c }

/-- Runs a coroutine once. -/
def run (c : Nat) : BenchM RunRecord := do
  let outcome ← observe (.run c)
  let b ← get
  return ⟨outcome.map fun _ => (), ← coroutine c, b.heap, b.trace⟩

def clearTrace : BenchM Unit := modify fun b => b.withOwn fun s => { s with trace := #[] }

/-- Runs a coroutine until it is finished, but at most `max` times. -/
def drain (c : Nat) : (max : Nat) → BenchM (List RunRecord)
  | 0 => return []
  | max + 1 => do
    if (← coroutine c).state = .finished then return []
    clearTrace
    let record ← run c
    clearTrace
    return record :: (← drain c max)

/-- Captures a coroutine. -/
def snapshot (c : Nat) : BenchM CoroutineSnapshot := do
  orFail ((← coroutine c).snapshot (← get).heap)

/-- Rebuilds a coroutine. -/
def rebuild (shot : CoroutineSnapshot) : BenchM Coroutine := do
  let b ← get
  let (heap, c) ← orFail (shot.rebuild b.heap)
  set (b.withMemory { b.memory with heap })
  return c

/-- The snapshot that a text describes, or the latest one of a coroutine. -/
def snapshotFrom (k : Nat) : (text : Option String) → BenchM CoroutineSnapshot
  | some text =>
    match CoroutineSnapshot.ofJson text with
    | .ok shot => return shot
    | .error fault => throw (.unreadable fault)
  | none => do
    match (← get).captured.lookup k with
    | some shot => return shot
    | none => throw .noSnapshot

/-! ### Iterators -/

/-- Adds an iterator. From the first one on there is a method that offers elements. -/
def addIterator (c : Coroutine) (body : CoroutineBody) : BenchM Unit := do
  let c ← add c body
  modify fun b =>
    let b := b.withOwn fun s => { s with iterators := s.iterators.push ⟨c, none⟩ }
    let generator := BenchMethod.generator
    if (b.machine.natives.lookup generator.1).isSome then b
    else { b with machine := { b.machine with natives := generator :: b.machine.natives } }

def iterator (k : Nat) : BenchM ElementSlot := do
  match (← get).machine.host.own.iterators[k]? with
  | some slot => return slot
  | none => fail (.noSuchClass (toString k))

/-- How an iterator sees the bench. -/
def iteration (k : Nat) : Iteration Bench Value :=
  let slot (b : Bench) : ElementSlot := b.machine.host.own.iterators[k]?.getD default
  { state := fun b => (b.memory.coroutines.state? (slot b).coroutine).getD .finished
    pending := fun b => (slot b).pending
    clear := fun b => b.withOwn fun s =>
      { s with iterators := s.iterators.modify k ({ · with pending := none }) }
    run := fun b =>
      (b.machine.perform? Bench.limit (.run (slot b).coroutine)).map fun (machine, outcome) =>
        ({ b with machine }, outcome.map fun _ => ()) }

/-- What an iterator comes to. -/
def iterate {α : Type} (step : Bench → Option (Bench × α)) : BenchM α := do
  match step (← get) with
  | none => throw .unfinished
  | some (b, a) =>
    set b
    return a

/-- Captures an iterator that has no element. -/
def snapshotIterator (k : Nat) : BenchM CoroutineSnapshot := do
  let slot ← iterator k
  if slot.pending.isSome then fail (.invalidState .elementPending)
  snapshot slot.coroutine

end BenchM

namespace Bench

open BenchM

/-- Makes a step. -/
def perform : BenchStep → BenchM BenchReply
  | .evaluate task name => .result <$> evaluate task name
  | .display value => do
    let v ← build value
    return .text ((← get).heap.display v)
  | .isSame a b => do return .flag ((← build a).isSameReference (← build b))
  | .getStatic owner name => do
    return (((← get).memory.getStatic? owner name).map BenchReply.value).getD .nothing
  | .setStatic owner name value => do
    let v ← build value
    modify fun b => b.withMemory (b.memory.setStatic owner name v)
    return .nothing
  | .hasClass name => do return .flag ((← get).machine.classes.contains name)
  | .isSubclass name ancestor => do
    return .flag ((← get).machine.classes.isSubclass name ancestor)
  | .isInstance value type => do
    let v ← build value
    let b ← get
    return .flag (b.machine.classes.isInstance b.heap v type)
  | .load unit => do
    BenchM.load unit
    return .nothing
  | .install units => .installed <$> BenchM.install units
  | .newCoroutine entry size => do
    let body ← body entry
    let c ← orFail (Coroutine.ofSize size)
    enlist c body
    return .coroutine c
  | .run k => do return .ran (← BenchM.run (← number k))
  | .drain k max => do return .drained (← BenchM.drain (← number k) max)
  | .capture k => do
    let shot ← snapshot (← number k)
    modify fun b => { b with captured := (k, shot) :: b.captured }
    return .text shot.toJson.compact
  | .rebuild k text entry => do
    let shot ← snapshotFrom k text
    let body ← match entry with
      | some entry => body entry
      | none => bodyOf (← number k)
    let c ← BenchM.rebuild shot
    enlist c body
    return .coroutine c
  | .newIterator entry size => do
    let body ← body entry
    let c ← orFail (Coroutine.ofSize size)
    addIterator c body
    return .nothing
  | .hasNext k => do
    let _ ← iterator k
    return .flag (← orFail (← iterate ((iteration k).hasNext limit)))
  | .take k => do
    let _ ← iterator k
    return .value (← orFail (← iterate ((iteration k).takeNext limit)))
  | .next k => do
    let _ ← iterator k
    match ← iterate ((iteration k).next? limit) with
    | none => return .nothing
    | some outcome => return .value (← orFail outcome)
  | .iteratorState k => do return .coroutine (← coroutine (← iterator k).coroutine)
  | .captureIterator k => do
    let shot ← snapshotIterator k
    modify fun b => { b with capturedIterator := some shot }
    return .text shot.toJson.compact
  | .rebuildIterator k => do
    let slot ← iterator k
    match (← get).capturedIterator with
    | none => throw .noSnapshot
    | some shot =>
      let c ← BenchM.rebuild shot
      addIterator c (← bodyOf slot.coroutine)
      return .nothing

/-- Makes steps: what each comes to, with the bench after it. The trace of a bench is that of the
last step. -/
def play : List BenchStep → Bench → List (Except BenchStop BenchReply × Bench)
  | [], _ => []
  | step :: rest, b =>
    let (reply, b) := (do clearTrace; perform step).on b
    (reply, b) :: play rest b

end Bench

end Resumable
