import Resumable.Coroutine.Snapshot
import Resumable.Coroutine.Locals

/-!
# Coroutines

A coroutine has a stack of frames, its own values of variables, and a state. Running it makes it the
active one, whose stack the frame operations work on. `Coroutines.begin` and `Coroutines.conclude`
are the two ends of a run, whatever the body does in between: the body may run other coroutines,
and the one that was active before is active again afterwards.

A run that ends in the suspension signal suspends the coroutine and rewinds its stack; the signal
never leaves the run. Any other end finishes the coroutine.
-/

namespace Resumable

inductive CoroutineState where
  /-- Never run. -/
  | new
  | running
  /-- Left by the signal, ready to go on. -/
  | suspended
  /-- Ended or failed. -/
  | finished
  deriving DecidableEq, Repr, Inhabited

def CoroutineState.name : CoroutineState → String
  | .new => "New"
  | .running => "Running"
  | .suspended => "Suspended"
  | .finished => "Finished"

structure Coroutine where
  state : CoroutineState := .new
  stack : FrameStack
  locals : LocalValues := []
  deriving DecidableEq, Repr, Inhabited

namespace Coroutine

/-- Where the coroutine pauses, if it does. -/
def pause? (c : Coroutine) : Option PauseState :=
  match c.state with
  | .new => some .new
  | .suspended => some .suspended
  | .running | .finished => none

/-- A coroutine with some slots, or with the standard number of them. -/
def ofSize : Option Nat → Except RunError Coroutine
  | none => .ok { stack := .standard }
  | some size => return { stack := ← FrameStack.new size }

/-- Captures a coroutine that pauses. Its variables and its body are not captured. -/
def snapshot (c : Coroutine) (h : Heap) : Except RunError CoroutineSnapshot :=
  match c.pause? with
  | some state => .ok ⟨state, c.stack.snapshot h⟩
  | none => .error (.invalidState .notRunnable)

end Coroutine

/-- Rebuilds a captured coroutine. -/
def CoroutineSnapshot.rebuild (s : CoroutineSnapshot) (h : Heap) :
    Except RunError (Heap × Coroutine) := do
  let (h, stack) ← s.stack.rebuild h
  let state := match s.state with
    | .new => CoroutineState.new
    | .suspended => .suspended
  return (h, { state, stack })

/-- All coroutines, by the order in which they were made, and which of them is active. -/
structure Coroutines where
  all : Array Coroutine := #[]
  active : Option Nat := none
  deriving DecidableEq, Repr, Inhabited

namespace Coroutines

/-- Adds a coroutine; it gets the next number. -/
def add (cs : Coroutines) (c : Coroutine) : Coroutines := { cs with all := cs.all.push c }

def state? (cs : Coroutines) (k : Nat) : Option CoroutineState := cs.all[k]?.map (·.state)

def modify (cs : Coroutines) (k : Nat) (f : Coroutine → Coroutine) : Coroutines :=
  { cs with all := cs.all.modify k f }

/-- Does something with the active coroutine. -/
def onActive {α : Type} (cs : Coroutines) (f : Coroutine → Except RunError (α × Coroutine)) :
    Except RunError (α × Coroutines) :=
  match cs.active with
  | none => .error (.invalidState .noCoroutine)
  | some k =>
    match cs.all[k]? with
    | none => .error (.invalidState .noCoroutine)
    | some c => do
      let (a, c) ← f c
      return (a, { cs with all := cs.all.setIfInBounds k c })

/-- Does something with the stack of the active coroutine. -/
def onStack {α : Type} (cs : Coroutines) (f : FrameStack → Except RunError (α × FrameStack)) :
    Except RunError (α × Coroutines) :=
  cs.onActive fun c => do
    let (a, stack) ← f c.stack
    return (a, { c with stack })

/-- Starts a run: the coroutine is running and active. One that is running or finished is refused,
and so is a number that no coroutine has. -/
def begin (cs : Coroutines) (k : Nat) : Except RunError Coroutines :=
  match cs.all[k]? with
  | none => .error (.noSuchClass (toString k))
  | some c =>
    match c.pause? with
    | some _ => .ok { cs.modify k ({ · with state := .running }) with active := some k }
    | none => .error (.invalidState .notRunnable)

/-- Whether a run was left by the signal. -/
def isSuspension : Except RunError Unit → Bool
  | .error e => e == .suspension
  | .ok () => false

/-- Ends a run of `k` with what its body came to, and makes `previous` active again. -/
def conclude (cs : Coroutines) (k : Nat) (previous : Option Nat) (outcome : Except RunError Unit) :
    Coroutines × Except RunError Unit :=
  let cs := { cs with active := previous }
  if isSuspension outcome then
    (cs.modify k fun c => { c with state := .suspended, stack := c.stack.rewind }, .ok ())
  else (cs.modify k ({ · with state := .finished }), outcome)

end Coroutines

end Resumable
