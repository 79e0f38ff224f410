import Resumable.Machine.Host
import Resumable.Machine.Platform

/-!
# The machine

A machine executes one activation at a time; activations and methods of the host that wait for an
answer, and the coroutines that are being run, stand on a stack of waiting parties. `Execution.step`
makes one step: it carries out a request, executes an instruction, or hands an answer to whoever waits
for it. An execution is over when there is an answer and nobody is left to take it.

`Execution.run?` makes steps up to a limit. Whether a program ends cannot be told in advance, so an
execution that has not ended by then has no outcome; with a larger limit the outcome of one that has
ended stays the same.
-/

namespace Resumable

/-- The method that a coroutine calls in each of its runs. -/
inductive CoroutineBody where
  | static (member : MemberRef) (args : List Value)
  | virtual (receiver : Value) (name desc : String) (args : List Value)
  deriving DecidableEq, Repr, Inhabited

def CoroutineBody.request : CoroutineBody → Request
  | .static member args => .call ⟨.invokestatic, member, args⟩
  | .virtual receiver name desc args => .on receiver name desc args

/-- Loaded classes, methods of the host, coroutines with their bodies, and what they work on. -/
structure Machine (H : Host) where
  host : HostState H.State
  classes : ClassTable := Platform.table
  natives : List (MemberRef × H.Native) := []
  bodies : Array CoroutineBody := #[]

/-- How many activations may wait for each other. -/
def maxCallDepth : Nat := 512

/-- Who waits for an answer. -/
inductive Waiting (π : Type) where
  /-- An activation, for the answer to a call. -/
  | caller (a : Activation) (request : Call)
  /-- A method of the host, for the answer to whatever it has asked for. -/
  | native (next : π)
  /-- Whoever runs a coroutine; `previous` was active before. -/
  | runner (k : Nat) (previous : Option Nat)
  deriving DecidableEq, Repr, Inhabited

namespace Waiting

variable {π : Type}

def isCaller : Waiting π → Bool
  | .caller .. => true
  | _ => false

def isNative : Waiting π → Bool
  | .native _ => true
  | _ => false

def isRunner : Waiting π → Bool
  | .runner .. => true
  | _ => false

end Waiting

/-- What the machine is about to do. -/
inductive Focus where
  | request (request : Request)
  | active (a : Activation)
  | answer (outcome : Except RunError (Option Value))
  deriving Inhabited

/-- A machine at work. -/
structure Execution (H : Host) where
  machine : Machine H
  waiting : List (Waiting H.Pending) := []
  focus : Focus

/-- What a call leads to. -/
inductive Callable (ν : Type) where
  | native (n : ν)
  | code (m : LoadedMethod)
  deriving Inhabited

variable {H : Host}

namespace Machine

def memory (m : Machine H) : Memory := m.host.memory

/-- The machine with another memory. -/
def withMemory (m : Machine H) (memory : Memory) : Machine H :=
  { m with host := { m.host with memory } }

/-- Looks for a method of the host or one with a body, first in the class `name` and then in its
ancestors, at most `steps` of them. -/
def findCallable? (m : Machine H) (method desc : String) : (steps : Nat) → (name : String) →
    Option (Callable H.Native)
  | steps, name =>
    match m.natives.lookup ⟨name, method, desc⟩ with
    | some n => some (.native n)
    | none =>
      match m.classes.find? name with
      | none => none
      | some c =>
        match c.findBody? method desc with
        | some body => some (.code body)
        | none =>
          match steps, c.superName with
          | steps + 1, some parent => m.findCallable? method desc steps parent
          | _, _ => none

/-- The method that a call on class `start` leads to. -/
def resolve (m : Machine H) (start name desc : String) : Except RunError (Callable H.Native) :=
  match m.findCallable? name desc m.classes.entries.length start with
  | some callable => .ok callable
  | none => .error (.noSuchMethod s!"{start}.{name}{desc}")

/-- The class in which the method of a call is looked up. -/
def dispatchClass (m : Machine H) (c : Call) : Except RunError String :=
  match c.op with
  | .invokestatic | .invokespecial => .ok c.member.owner
  | .invokevirtual | .invokeinterface =>
    match c.args with
    | [] => .error .stackUnderflow
    | receiver :: _ =>
      match m.memory.heap.className? receiver with
      | some type => .ok type
      | none =>
        .error (if receiver.isNull then .nullPointer
          else .type (.cannotInvoke c.member.name receiver.typeName))
  | op => .error (.code (.notInvoke op))

/-- The method that a call leads to. -/
def target (m : Machine H) (c : Call) : Except RunError (Callable H.Native) := do
  let callable ← m.resolve (← m.dispatchClass c) c.member.name c.member.desc
  if c.op = .invokespecial ∧ c.args.head? = some .null then throw .nullPointer
  return callable

end Machine

namespace Execution

/-- Hands over an outcome. -/
def answer (e : Execution H) (outcome : Except RunError (Option Value)) : Execution H :=
  { e with focus := .answer outcome }

/-- Goes on as an activation says. -/
def proceed (e : Execution H) : Progress → Execution H
  | .going a => { e with focus := .active a }
  | .done outcome => e.answer outcome
  | .calling a request =>
    { e with waiting := .caller a request :: e.waiting, focus := .request (.call request) }

/-- Goes on as a method of the host says. -/
def respond (e : Execution H) : Response H.Pending → Execution H
  | .answer outcome => e.answer outcome
  | .ask request next => { e with waiting := .native next :: e.waiting, focus := .request request }

/-- Starts a method with code, unless too many activations wait already. -/
def start (e : Execution H) (m : LoadedMethod) (args : List Value) : Execution H :=
  if maxCallDepth ≤ e.waiting.countP Waiting.isCaller then
    e.answer (.error (.code (.tooDeep maxCallDepth)))
  else
    match Activation.enter m args with
    | .ok a => { e with focus := .active a }
    | .error error => e.answer (.error error)

/-- Carries out a call. -/
def call (e : Execution H) (c : Call) : Execution H :=
  match e.machine.target c with
  | .error error => e.answer (.error error)
  | .ok (.code m) => e.start m c.args
  | .ok (.native n) =>
    let (response, host) := H.apply n c.args e.machine.host
    { e with machine := { e.machine with host } }.respond response

/-- Starts a run of a coroutine. -/
def runCoroutine (e : Execution H) (k : Nat) : Execution H :=
  let memory := e.machine.memory
  match memory.coroutines.begin k with
  | .error error => e.answer (.error error)
  | .ok coroutines =>
    { e with
      machine := e.machine.withMemory { memory with coroutines }
      waiting := .runner k memory.coroutines.active :: e.waiting
      focus := .request (e.machine.bodies[k]?.getD default).request }

/-- Carries out a request. -/
def perform (e : Execution H) : Request → Execution H
  | .call c => e.call c
  | .on receiver name desc args =>
    match e.machine.memory.heap.className? receiver with
    | none => e.answer (.error .nullPointer)
    | some owner => e.call ⟨.invokevirtual, ⟨owner, name, desc⟩, receiver :: args⟩
  | .run k => e.runCoroutine k

/-- Hands an answer to whoever waits for it. -/
def deliver (e : Execution H) (outcome : Except RunError (Option Value)) : Execution H :=
  match e.waiting with
  | [] => e
  | .caller a request :: waiting =>
    let (progress, memory) := a.resume e.machine.classes request outcome e.machine.memory
    { e with machine := e.machine.withMemory memory, waiting }.proceed progress
  | .native next :: waiting =>
    let (response, host) := H.resume next outcome e.machine.host
    { e with machine := { e.machine with host }, waiting }.respond response
  | .runner k previous :: waiting =>
    let memory := e.machine.memory
    let (coroutines, outcome) := memory.coroutines.conclude k previous (outcome.map fun _ => ())
    { e with machine := e.machine.withMemory { memory with coroutines }, waiting }.answer
      (outcome.map fun _ => none)

/-- One step. An execution that is over stays as it is. -/
def step (e : Execution H) : Execution H :=
  match e.focus with
  | .request request => e.perform request
  | .active a =>
    let (progress, memory) := a.step e.machine.classes e.machine.memory
    { e with machine := e.machine.withMemory memory }.proceed progress
  | .answer outcome => e.deliver outcome

/-- The outcome of an execution that is over. -/
def outcome? (e : Execution H) : Option (Except RunError (Option Value)) :=
  match e.focus, e.waiting with
  | .answer outcome, [] => some outcome
  | _, _ => none

/-- Makes steps until the execution is over, at most `limit` of them. -/
def run? : (limit : Nat) → Execution H → Option (Machine H × Except RunError (Option Value))
  | limit, e =>
    match e.outcome? with
    | some outcome => some (e.machine, outcome)
    | none =>
      match limit with
      | 0 => none
      | limit + 1 => run? limit e.step

end Execution

/-- Carries out a request from outside. -/
def Machine.perform? (m : Machine H) (limit : Nat) (request : Request) :
    Option (Machine H × Except RunError (Option Value)) :=
  Execution.run? limit { machine := m, focus := .request request }

end Resumable
