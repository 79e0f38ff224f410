import Resumable.Coroutine.Basic

/-!
# Iterating over a coroutine

A coroutine can hand out elements one by one: its body offers an element and suspends, and whoever
wants the element takes it and runs the coroutine again when the next one is wanted. At most one
element is pending; the body is never run while there is one.
-/

namespace Resumable

/-- An element to be taken. A second one is refused while the first is pending. -/
def offer {α : Type} (pending : Option α) (element : α) : Except RunError (Option α) :=
  match pending with
  | some _ => .error (.invalidState .alreadyPending)
  | none => .ok (some element)

/-- How an iterator sees the world `σ` in which its coroutine runs. -/
structure Iteration (σ α : Type) where
  state : σ → CoroutineState
  pending : σ → Option α
  /-- Forgets the pending element. -/
  clear : σ → σ
  /-- Runs the coroutine once, if the run comes to an end. -/
  run : σ → Option (σ × Except RunError Unit)

namespace Iteration

variable {σ α : Type} (it : Iteration σ α)

/-- Whether there is another element. Runs the coroutine until an element is pending or the
coroutine has ended, but at most `limit` times. -/
def hasNext (limit : Nat) (s : σ) : Option (σ × Except RunError Bool) :=
  if (it.pending s).isSome then some (s, .ok true)
  else if it.state s = .finished then some (s, .ok false)
  else
    match limit with
    | 0 => none
    | limit + 1 =>
      match it.run s with
      | none => none
      | some (s, .error e) => some (s, .error e)
      | some (s, .ok ()) => hasNext limit s

/-- Takes the next element. -/
def takeNext (limit : Nat) (s : σ) : Option (σ × Except RunError α) :=
  match it.hasNext limit s with
  | none => none
  | some (s, .error e) => some (s, .error e)
  | some (s, .ok _) =>
    match it.pending s with
    | some element => some (it.clear s, .ok element)
    | none => some (s, .error .exhausted)

/-- The next element, or nothing at the end. -/
def next? (limit : Nat) (s : σ) : Option (σ × Option (Except RunError α)) :=
  match it.hasNext limit s with
  | none => none
  | some (s, .error e) => some (s, some (.error e))
  | some (s, .ok false) => some (s, none)
  | some (s, .ok true) => (it.takeNext limit s).map fun (s, x) => (s, some x)

end Iteration

end Resumable
