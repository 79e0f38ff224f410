import Resumable.Coroutine.Script

/-!
# The JSON form of scripts

A step is an array: its word and its arguments. What a step came to is written as plainly as it goes:
a number as a number, a value in its own form, a failure as the report of an error.
-/

namespace Resumable

open Json (Decoder Draft Fault)

/-! ### Reading -/

namespace Json.Decoder

/-- A word with arguments. -/
def call : Draft → Except Fault (String × List Draft)
  | .arr (.str word :: args) => .ok (word, args)
  | d => .error d.misfit

/-- A count or a place. -/
def count : Decoder Nat := natural 64

/-- A whole number of any sign. -/
def whole : Decoder Int := integer Int64.minValue.toInt Int64.maxValue.toInt

/-- A step on a stack, if the word is for one. -/
def stackStep? : String × List Draft → Option (Except Fault StackStep)
  | ("entry", []) => some (.ok .enter)
  | ("reserve", [index, slots]) =>
    some (return .reserve (← uint32 index) (← uint64 slots))
  | ("release", []) => some (.ok .release)
  | ("resume", []) => some (.ok .rewind)
  | ("save", [kind, slot, v]) =>
    some (return .save (← slotKind kind) (← uint32 slot) (← literal v))
  | ("restore", [.str kind, slot]) =>
    some (return .restore (← slotKind (.str kind)) (← uint32 slot))
  | ("frame", [index]) => some (return .frame (← count index))
  | ("let", [name, v]) => some (return .bind (← string name) (← literal v))
  | ("set_field", [target, name, v]) =>
    some (return .setField (← literal target) (← string name) (← literal v))
  | ("set_item", [target, index, v]) =>
    some (return .setItem (← literal target) (← count index) (← literal v))
  | ("snapshot", []) => some (.ok .snapshot)
  | ("reload", []) => some (.ok .reload)
  | ("debug", []) => some (.ok .describe)
  | _ => none

def stackStep : Decoder StackStep := fun d => do
  let c ← call d
  match stackStep? c with
  | some step => step
  | none => throw (.unknownTag c.1)

def bodyStep : Decoder BodyStep := fun d => do
  let c ← call d
  match stackStep? c with
  | some step => return .stack (← step)
  | none =>
    match c with
    | ("suspend", []) => return .suspend
    | ("fail", [number]) => return .fail (.ofHost (← count number))
    | ("fake", []) => return .counterfeit
    | ("run", [k]) => return .run (← count k)
    | ("try_run", [k]) => return .runOrFail (← count k)
    | ("state", [k]) => return .state (← count k)
    | ("co_snapshot", [k]) => return .capture (← count k)
    | ("current", []) => return .current
    | ("get", [key]) => return .get (← count key)
    | ("set", [key, v]) => return .set (← count key) (← whole v)
    | ("remove", [key]) => return .remove (← count key)
    | ("drop", [key]) => return .drop (← count key)
    | ("produce", [element]) => return .produce (← whole element)
    | (word, _) => throw (.unknownTag word)

/-- What a body does in each of its runs. -/
def runs : Decoder (List (List BodyStep)) := list (list bodyStep)

/-- What is done with coroutines from outside. -/
def command : Decoder SceneCommand := fun d => do
  match ← call d with
  | ("snapshot", [k]) => return .capture (← count k)
  | ("restore", [.num k, rs]) => return .rebuild (← count (.num k)) (← runs rs)
  | _ => return .step (← bodyStep d)

/-- What is done with iterators from outside. -/
def iteratorCommand : Decoder SceneCommand := fun d => do
  match ← call d with
  | ("has_next", [k]) => return .hasNext (← count k)
  | ("take", [k]) => return .take (← count k)
  | ("next", [k]) => return .next (← count k)
  | ("snapshot", [k]) => return .captureIdle (← count k)
  | ("restore", [_, rs]) => return .rebuildLatest (← runs rs)
  | (word, _) => throw (.unknownTag word)

end Json.Decoder

/-! ### Writing -/

/-- A frame as a pair of its resume index and its base. -/
def FrameMark.pair (f : FrameMark) : Json := .arr [.nat f.resumeIndex.toNat, .nat f.base]

/-- What a stack looks like from outside. -/
def FrameStack.summary (s : FrameStack) : Json :=
  .arr [.nat s.depth, .nat s.capacity, .arr (s.frames.map FrameMark.pair)]

def Coroutine.summary (c : Coroutine) : Json := .arr [.str c.state.name, c.stack.summary]

namespace Reply

/-- What a step came to. `rebuilt` writes a new coroutine. -/
def toJson (h : Heap) (rebuilt : Nat → Json) : Except RunError Reply → Json
  | .error e | .ok (.failed e) => e.toJson h
  | .ok .nothing => .null
  | .ok (.number n) => .int n
  | .ok (.flag b) => .bool b
  | .ok (.value v) => h.dump v
  | .ok (.text s) => .str s
  | .ok (.frame f) => f.pair
  | .ok (.state s) => .str s.name
  | .ok (.element x) => .arr [RunError.report h .int x]
  | .ok (.rebuilt k) => rebuilt k
  | .ok .noSnapshot => .obj [("error", .str "NoSnapshot")]
  | .ok .unfinished => .obj [("error", .str "Unfinished")]

end Reply

/-- A step and what it came to; a mark stands in front of the error that ended the run. -/
def Event.toJson (e : Event) : Json :=
  let outcome := Reply.toJson e.heap (fun _ => .null) e.outcome
  .arr (.str e.step.name :: match e.outcome with
    | .ok _ => [outcome]
    | .error _ => [.str "!", outcome])

end Resumable
