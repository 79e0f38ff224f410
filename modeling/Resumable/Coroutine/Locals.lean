/-!
# Variables with a value per coroutine

Each coroutine keeps its own values of the variables that it has used. A variable that has no value
yet gets one from its initializer, which may ask for the values of variables that were made before
it.

A variable can be dropped. It lives on as long as the initializer of a variable that lives may ask
for it. When nobody can ask for it any more, its values stay where they are until the next value is
put into the same coroutine; then they are purged.
-/

namespace Resumable

/-- How a value is found by asking for the values of some variables, one after the other. -/
inductive Reading (captured : List Nat) where
  | result (value : Int)
  | ask (key : Nat) (known : key ∈ captured) (next : Int → Reading captured)

/-- Finds the value. To ask for the value of a variable may change the state. -/
def Reading.run {captured : List Nat} {σ : Type} (get : Nat → σ → Int × σ) :
    Reading captured → σ → Int × σ
  | .result value, s => (value, s)
  | .ask key _ next, s =>
    let (value, s) := get key s
    (next value).run get s

/-- How the value of a variable starts. -/
structure Initializer where
  /-- The variables that it may ask for. Of these, it only finds those that were made before. -/
  captured : List Nat
  reading : Reading captured

/-- Starts with a fixed value. -/
def Initializer.constant (value : Int) : Initializer := ⟨[], .result value⟩

/-- The values that one coroutine has for variables. -/
abbrev LocalValues := List (Nat × Int)

namespace Initializer

/-! The functions here take initializers with the latest in front, so the number of the first is how
many are behind it. -/

/-- The variables that live: those that are not dropped, those that are needed, and those that the
initializers of variables that live may ask for. -/
def alive (dropped : List Nat) : List Initializer → (needed : List Nat) → List Nat
  | [], _ => []
  | last :: earlier, needed =>
    if dropped.contains earlier.length && !needed.contains earlier.length then
      alive dropped earlier needed
    else earlier.length :: alive dropped earlier (last.captured ++ needed)

/-- The value of a variable. If there is none, it starts, and `put` stores it. -/
def valueOf (put : Nat → Int → LocalValues → LocalValues) :
    List Initializer → (key : Nat) → LocalValues → Int × LocalValues
  | [], _, l => (0, l)
  | last :: earlier, key, l =>
    if key = earlier.length then
      match l.lookup key with
      | some value => (value, l)
      | none =>
        let (value, l) := last.reading.run (valueOf put earlier) l
        (value, put key value l)
    else valueOf put earlier key l

end Initializer

/-- All variables, in the order in which they were made. A variable is known by its place. -/
structure Variables where
  initializers : List Initializer
  dropped : List Nat := []
  deriving Inhabited

namespace Variables

/-- Ten variables: each starts with ten times its number, the last with one more than the first. -/
def standard : Variables where
  initializers := (List.range 9).map (fun k => .constant (10 * k)) ++
    [⟨[0], .ask 0 (by simp) fun value => .result (value + 1)⟩]

/-- Whether the variable can be asked for directly. -/
def isLive (vs : Variables) (key : Nat) : Bool :=
  key < vs.initializers.length && !vs.dropped.contains key

/-- Whether nobody can ask for the variable any more. -/
def isGone (vs : Variables) (key : Nat) : Bool :=
  !(Initializer.alive vs.dropped vs.initializers.reverse []).contains key

def drop (vs : Variables) (key : Nat) : Variables := { vs with dropped := key :: vs.dropped }

/-- Puts a value, and purges the values of variables that are gone. -/
def put (vs : Variables) (key : Nat) (value : Int) (l : LocalValues) : LocalValues :=
  (key, value) :: l.filter fun (k, _) => k != key && !vs.isGone k

/-- The value of a variable. If there is none, it starts. -/
def get (vs : Variables) (key : Nat) (l : LocalValues) : Int × LocalValues :=
  Initializer.valueOf vs.put vs.initializers.reverse key l

/-- Takes the value of a variable away. -/
def remove (key : Nat) (l : LocalValues) : Option Int × LocalValues :=
  (l.lookup key, l.filter fun (k, _) => k != key)

end Variables

end Resumable
