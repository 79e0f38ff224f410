import Resumable.Machine.Host
import Resumable.Coroutine.Iteration

/-!
# The host of a workbench

A workbench is a host (`benchHost`) with the methods of the platform, and with methods by which a
program can leave a trace, fail on purpose, call back, run coroutines, use variables and offer
elements. `BenchMethod.apply` says what each of them does.
-/

namespace Resumable

/-- A method of the platform, or of the workbench. -/
inductive BenchMethod where
  /-- The suspend call, reached in code that was not instrumented. -/
  | suspendCall
  | concat
  | length
  | equals
  | valueOf
  | sleep
  /-- Leaves the text of its argument in the trace. -/
  | record
  /-- Fails with one of the host's errors. -/
  | fail
  /-- Gives no result although its descriptor promises one. -/
  | noResult
  /-- Throws an exception. -/
  | raise
  /-- Calls a method of its first argument with the second. -/
  | callback
  | runCoroutine
  | coroutineState
  | currentCoroutine
  | getVariable
  | setVariable
  | removeVariable
  /-- Offers an element to the latest iterator. -/
  | offer
  deriving DecidableEq, Repr, Inhabited

namespace BenchMethod

/-- The methods of the platform. -/
def platform : List (MemberRef × BenchMethod) :=
  [(⟨Names.coroutine, Names.yieldName, Names.yieldDesc⟩, suspendCall),
    (⟨Names.string, "concat", "(Lsys/String;)Lsys/String;"⟩, concat),
    (⟨Names.string, "length", "()I"⟩, length),
    (⟨Names.string, "equals", "(Lsys/Object;)Z"⟩, equals),
    (⟨Names.string, "valueOf", "(I)Lsys/String;"⟩, valueOf),
    (⟨Names.string, "valueOf", "(J)Lsys/String;"⟩, valueOf),
    (⟨Names.string, "valueOf", "(D)Lsys/String;"⟩, valueOf),
    (⟨Names.string, "valueOf", "(Lsys/Object;)Lsys/String;"⟩, valueOf),
    (⟨Names.thread, "sleep", "(J)V"⟩, sleep)]

/-- The methods of the workbench that are there from the start. -/
def bench : List (MemberRef × BenchMethod) :=
  ["I", "J", "F", "D", "Lsys/String;", "Lsys/Object;"].map
      (fun desc => (⟨"app/Trace", "record", s!"({desc})V"⟩, record)) ++
    [(⟨"app/Host", "fail", "(I)V"⟩, fail),
      (⟨"app/Host", "none", "()I"⟩, noResult),
      (⟨"app/Host", "raise", "(Lsys/String;)V"⟩, raise),
      (⟨"app/Host", "call", "(Lsys/Object;I)I"⟩, callback),
      (⟨"app/Co", "run", "(I)V"⟩, runCoroutine),
      (⟨"app/Co", "state", "(I)Lsys/String;"⟩, coroutineState),
      (⟨"app/Co", "current", "()I"⟩, currentCoroutine),
      (⟨"app/Local", "get", "(I)I"⟩, getVariable),
      (⟨"app/Local", "set", "(II)V"⟩, setVariable),
      (⟨"app/Local", "remove", "(I)I"⟩, removeVariable)]

/-- The method of the workbench that is there once there is an iterator. -/
def generator : MemberRef × BenchMethod := (⟨"app/Gen", "emit", "(Lsys/Object;)V"⟩, offer)

end BenchMethod

/-- An iterator: its coroutine, and the element that is pending. -/
structure ElementSlot where
  coroutine : Nat
  pending : Option Value := none
  deriving DecidableEq, Repr, Inhabited

/-- What a workbench keeps apart from the memory. -/
structure BenchState where
  vars : Variables := .standard
  /-- The coroutines that programs know by a number. -/
  directory : Array Nat := #[]
  iterators : Array ElementSlot := #[]
  /-- The texts that have been recorded. -/
  trace : Array String := #[]
  deriving Inhabited

namespace BenchState

/-- The coroutine with a number in the list of the workbench. -/
def coroutine (s : BenchState) (k : Int) : Except RunError Nat :=
  match if 0 ≤ k then s.directory[k.toNat]? else none with
  | some c => .ok c
  | none => .error (.noSuchClass (toString k))

/-- The number of a coroutine in the list of the workbench. -/
def number? (s : BenchState) (c : Nat) : Option Nat := s.directory.idxOf? c

/-- An int from the value of a variable. -/
def ofVariable (v : Int) : Value := .int (Int32.ofInt v)

end BenchState

namespace BenchMethod

variable (s : HostState BenchState)

/-- Does something with the values of the active coroutine for a variable. -/
def onVariable (key : Int) (f : Nat → LocalValues → Option Value × LocalValues) :
    Except RunError (Option Value × HostState BenchState) :=
  if key < 0 ∨ !s.own.vars.isLive key.toNat then .error (.noSuchField (toString key))
  else do
    let (result, coroutines) ← s.memory.coroutines.onActive fun c =>
      let (result, locals) := f key.toNat c.locals
      .ok (result, { c with locals })
    return (result, { s with memory.coroutines := coroutines })

/-! ### Arguments -/

def arg (args : List Value) (index : Nat) : Except RunError Value :=
  match args[index]? with
  | some v => .ok v
  | none => .error .stackUnderflow

def intArg (args : List Value) (index : Nat) : Except RunError Int := do
  match ← arg args index with
  | .int v => return v.toInt
  | _ => throw (.type (.expected "int"))

def longArg (args : List Value) (index : Nat) : Except RunError Int := do
  match ← arg args index with
  | .long v => return v.toInt
  | _ => throw (.type (.expected "long"))

def textArg (args : List Value) (index : Nat) : Except RunError String := do
  match ← arg args index with
  | .str s => return s
  | .null => throw .nullPointer
  | v => throw (.type (.expectedFound "string" v.typeName))

/-! ### Results -/

/-- The outcome of a method that only looks. -/
def observe (x : Except RunError (Option Value)) : Response Unit × HostState BenchState :=
  (.answer x, s)

/-- The outcome of a method that may change something if it succeeds. -/
def change (x : Except RunError (Option Value × HostState BenchState)) :
    Response Unit × HostState BenchState :=
  match x with
  | .ok (result, s) => (.answer (.ok result), s)
  | .error e => (.answer (.error e), s)

/-- What the method does. When it asks for something, that is all it does. -/
def apply (n : BenchMethod) (args : List Value) (s : HostState BenchState) :
    Response Unit × HostState BenchState :=
  match n with
  | .suspendCall => observe s (.error .notInstrumented)
  | .concat => observe s do
    return some (.str ((← textArg args 0) ++ (← textArg args 1)))
  | .length => observe s do
    return some (.int (Int32.ofNat (← textArg args 0).length))
  | .equals => observe s do
    let text ← textArg args 0
    return some (.int (if (← arg args 1) = .str text then 1 else 0))
  | .valueOf => observe s do
    return some (.str (s.memory.heap.display (← arg args 0)))
  | .sleep => observe s do
    if (← longArg args 0) < 0 then throw (.illegalArgument .negativeTimeout)
    return none
  | .record => change s do
    let text := s.memory.heap.display (← arg args 0)
    return (none, { s with own.trace := s.own.trace.push text })
  | .fail => observe s do throw (.ofHost (← intArg args 0).toNat)
  | .noResult => observe s (.ok none)
  | .raise =>
    let (heap, v) := s.memory.heap.newException Names.illegalState "raised"
    (.answer (.error (.thrown v)), { s with memory.heap := heap })
  | .callback =>
    match (do return (← arg args 0, ← arg args 1) : Except RunError (Value × Value)) with
    | .ok (receiver, v) => (.ask (.on receiver "callback" "(I)I" [v]) (), s)
    | .error e => observe s (.error e)
  | .runCoroutine =>
    match (do s.own.coroutine (← intArg args 0) : Except RunError Nat) with
    | .ok c => (.ask (.run c) (), s)
    | .error e => observe s (.error e)
  | .coroutineState => observe s do
    let c ← s.own.coroutine (← intArg args 0)
    return (s.memory.coroutines.state? c).map fun state => .str state.name
  | .currentCoroutine => observe s <| .ok <| some <|
    match s.memory.coroutines.active.bind s.own.number? with
    | some k => .int (Int32.ofNat k)
    | none => .int (-1)
  | .getVariable => change s do
    onVariable s (← intArg args 0) fun key l =>
      let (v, l) := s.own.vars.get key l
      (some (BenchState.ofVariable v), l)
  | .setVariable => change s do
    let v ← intArg args 1
    onVariable s (← intArg args 0) fun key l => (none, s.own.vars.put key v l)
  | .removeVariable => change s do
    onVariable s (← intArg args 0) fun key l =>
      let (v?, l) := Variables.remove key l
      (some (BenchState.ofVariable (v?.getD (-1))), l)
  | .offer => change s do
    let v ← arg args 0
    let last := s.own.iterators.size - 1
    match s.own.iterators[last]? with
    | none => throw (.invalidState .noCoroutine)
    | some slot =>
      let pending ← Resumable.offer slot.pending v
      return (none, { s with own.iterators := s.own.iterators.setIfInBounds last { slot with pending } })

/-! ### The memory -/

theorem change_cases (s : HostState BenchState)
    (x : Except RunError (Option Value × HostState BenchState)) :
    (change s x).2 = s ∨ ∃ result s', x = .ok (result, s') ∧ (change s x).2 = s' := by
  unfold change
  split
  · exact .inr ⟨_, _, rfl, rfl⟩
  · exact .inl rfl

/-- A method leaves the memory alone, makes an exception, or changes the value of a variable. -/
theorem apply_cases (n : BenchMethod) (args : List Value) (s : HostState BenchState) :
    (n.apply args s).2.memory = s.memory ∨
      (∃ type message, (n.apply args s).2.memory =
        { s.memory with heap := (s.memory.heap.newException type message).1 }) ∨
      ∃ key f result s', onVariable s key f = .ok (result, s') ∧
        (n.apply args s).2.memory = s'.memory := by
  cases n with
  | raise => exact .inr (.inl ⟨_, _, rfl⟩)
  | callback | runCoroutine =>
    left
    unfold apply
    dsimp only
    split <;> rfl
  | record =>
    left
    obtain hsame | ⟨result, s', hx, hs'⟩ := change_cases s _
    · exact congrArg HostState.memory hsame
    · rcases hv : arg args 0 with error | v <;> rw [hv] at hx <;> cases hx
      have hmemory := congrArg HostState.memory hs'
      exact hmemory
  | getVariable | removeVariable =>
    obtain hsame | ⟨result, s', hx, hs'⟩ := change_cases s _
    · exact .inl (congrArg HostState.memory hsame)
    · rcases hkey : intArg args 0 with error | key <;> rw [hkey] at hx
      · cases hx
      · simp only [bind, Except.bind] at hx
        exact .inr (.inr ⟨key, _, result, s', hx, congrArg HostState.memory hs'⟩)
  | setVariable =>
    obtain hsame | ⟨result, s', hx, hs'⟩ := change_cases s _
    · exact .inl (congrArg HostState.memory hsame)
    · rcases hv : intArg args 1 with error | v <;> rw [hv] at hx
      · cases hx
      rcases hkey : intArg args 0 with error | key <;> rw [hkey] at hx
      · cases hx
      · simp only [bind, Except.bind] at hx
        exact .inr (.inr ⟨key, _, result, s', hx, congrArg HostState.memory hs'⟩)
  | offer =>
    left
    obtain hsame | ⟨result, s', hx, hs'⟩ := change_cases s _
    · exact congrArg HostState.memory hsame
    · rcases hv : arg args 0 with error | v <;> rw [hv] at hx
      · cases hx
      simp only [bind, Except.bind] at hx
      split at hx
      · cases hx
      · rename_i slot _
        rcases hoffer : Resumable.offer slot.pending v with error | pending <;>
          rw [hoffer] at hx <;> cases hx
        have hmemory := congrArg HostState.memory hs'
        exact hmemory
  | _ => exact .inl rfl

theorem heap_onVariable {s s' : HostState BenchState} {key : Int} {result : Option Value}
    {f : Nat → LocalValues → Option Value × LocalValues} (h : onVariable s key f = .ok (result, s')) :
    s'.memory.heap = s.memory.heap := by
  unfold onVariable at h
  split at h
  · cases h
  · rcases hactive : s.memory.coroutines.onActive _ with error | ⟨result, coroutines⟩ <;>
      rw [hactive] at h <;> cases h
    rfl

theorem apply_extends (n : BenchMethod) (args : List Value) (s : HostState BenchState) :
    s.memory.heap.Extends (n.apply args s).2.memory.heap := by
  rcases n.apply_cases args s with hsame | ⟨type, message, hmade⟩ | ⟨key, f, result, s', hvariable, hs'⟩
  · rw [hsame]
    exact .refl _
  · rw [hmade]
    exact s.memory.heap.extends_newException type message
  · rw [hs', heap_onVariable hvariable]
    exact .refl _

end BenchMethod

/-- The host of a workbench. -/
@[reducible] def benchHost : Host where
  Native := BenchMethod
  Pending := Unit
  State := BenchState
  apply := BenchMethod.apply
  resume _ outcome s := (.answer outcome, s)
  apply_extends := BenchMethod.apply_extends
  resume_extends _ _ s := .refl s.memory.heap

end Resumable
