import Resumable.ClassDef.Basic
import Resumable.Suspendable.Journal

/-!
# Which calls may suspend

The database answers whether a call may suspend, by looking for the declaration along the ancestors
of the class, and where two classes meet in the hierarchy. It learns classes on demand from a
resolver and keeps what it has learnt; a class that cannot be had is taken to suspend.

Answers are given in `Inquiry`: asking may add facts and notices. A walk along ancestors makes at
most `Database.reach` steps, which is the number of classes that have an ancestor at all, so without
a cycle in the hierarchy it always comes to its end.
-/

namespace Resumable

/-- Where classes outside the batch come from. Every class that can be had is listed. -/
structure Resolver where
  find : String → Option ClassDef
  names : List String
  find_mem : ∀ {name c}, find name = some c → name ∈ names

namespace Resolver

/-- A resolver that has no class. -/
def empty : Resolver := ⟨fun _ => none, [], by simp⟩

/-- A resolver that answers from a list; the first entry for a name counts. -/
def ofList (entries : List (String × ClassDef)) : Resolver where
  find name := (entries.find? (·.1 == name)).map (·.2)
  names := entries.map (·.1)
  find_mem := by
    intro name c h
    obtain ⟨e, he, rfl⟩ := Option.map_eq_some_iff.1 h
    have hname : e.1 = name := by simpa using List.find?_some he
    exact hname ▸ List.mem_map_of_mem (List.mem_of_find?_eq_some he)

end Resolver

/-- The name under which a method's flag is kept. -/
def methodKey (name desc : String) : String := name ++ desc

/-- What is known about one class: its ancestor, and which of its methods may suspend. Of several
flags for a method the first in the list counts. -/
structure ClassFacts where
  superName : Option String
  flags : List (String × Bool) := []
  deriving Repr, Inhabited

namespace ClassFacts

/-- Whether a method that the class declares may suspend. -/
def flag? (f : ClassFacts) (key : String) : Option Bool := f.flags.lookup key

def check? (f : ClassFacts) (name desc : String) : Option Bool := f.flag? (methodKey name desc)

def set (f : ClassFacts) (name desc : String) (suspendable : Bool) : ClassFacts :=
  { f with flags := (methodKey name desc, suspendable) :: f.flags }

/-- The facts that the heads of a class's methods give. -/
def ofClass (c : ClassDef) : ClassFacts :=
  c.methods.foldl (fun f m => f.set m.name m.desc (m.declares Names.suspendExecution))
    { superName := c.superName }

/-- Whether any method of the class may suspend. -/
def hasSuspendable (f : ClassFacts) : Bool := f.flags.any fun (key, _) => f.flag? key == some true

/-- Whether two sets of facts give the same answers. -/
def agrees (f g : ClassFacts) : Bool :=
  f.superName == g.superName &&
    (f.flags ++ g.flags).all fun (key, _) => f.flag? key == g.flag? key

end ClassFacts

/-- What is known about a name. -/
inductive Fact where
  | known (facts : ClassFacts)
  /-- There is no such class. -/
  | notFound
  deriving Repr, Inhabited

def Fact.agrees : Fact → Fact → Bool
  | .known f, .known g => f.agrees g
  | .notFound, .notFound => true
  | _, _ => false

/-- The ancestors of the platform's classes. -/
def platformSupers : List (String × String) :=
  [(Names.throwable, Names.object),
    (Names.exception, Names.throwable),
    (Names.runtimeException, Names.exception),
    (Names.illegalState, Names.runtimeException),
    (Names.arithmetic, Names.runtimeException),
    (Names.nullPointer, Names.runtimeException),
    (Names.classCast, Names.runtimeException),
    (Names.indexOutOfBounds, Names.runtimeException),
    (Names.negativeArraySize, Names.runtimeException),
    (Names.error, Names.throwable),
    (Names.string, Names.object),
    (Names.thread, Names.object)]

/-- Facts about classes, as far as they have been asked for, and the notices that came up. Newer
entries stand in front of older ones. -/
structure Database where
  resolver : Resolver
  options : Options
  facts : List (String × Fact)
  supers : List (String × String)
  workList : List String := []
  notices : List (Level × String) := []

namespace Database

/-- What is known before anything is asked: the suspend call, its signal and the platform. -/
def new (options : Options) (resolver : Resolver) : Database where
  resolver := resolver
  options := options
  facts :=
    [(Names.coroutine, .known
        (({ superName := some Names.object } : ClassFacts).set Names.yieldName Names.yieldDesc
          true)),
      (Names.suspendExecution, .known { superName := some Names.exception })]
  supers := platformSupers

def fact? (db : Database) (name : String) : Option Fact := db.facts.lookup name

/-- Keeps a notice if its level is enabled. -/
def log (db : Database) (level : Level) (notice : Notice) : Database :=
  if level.isEnabled db.options then
    { db with notices := db.notices ++ [(level, notice.text)] }
  else db

/-- Keeps a failure with its cause, whatever the options. -/
def logFailure (db : Database) (what cause : String) : Database :=
  { db with notices := db.notices ++ [(.warning, what ++ ": " ++ cause)] }

/-- Takes a fact in. A fact that contradicts an earlier one replaces it, with a warning. -/
def record (db : Database) (name : String) (fact : Fact) : Database :=
  let db' := { db with facts := (name, fact) :: db.facts }
  match db.fact? name with
  | some old => if old.agrees fact then db' else db'.log .warning (.contradiction name)
  | none => db'

/-- How many steps a walk along ancestors can make without meeting a class twice. -/
def reach (db : Database) : Nat :=
  db.facts.length + db.supers.length + db.resolver.names.length + 1

end Database

/-- A question to the database, which may learn from it. -/
abbrev Inquiry := StateM Database

namespace Inquiry

def log (level : Level) (notice : Notice) : Inquiry Unit := modify fun db => db.log level notice

/-- What is known about a class once the resolver has been asked. -/
def factOf (name : String) : Inquiry Fact := do
  match (← get).fact? name with
  | some fact => return fact
  | none =>
    log .info (.readingClass name)
    match (← get).resolver.find name with
    | some c =>
      let fact := Fact.known (.ofClass c)
      modify fun db => db.record name fact
      return fact
    | none =>
      log .warning (.classNotFound name)
      modify fun db => db.record name .notFound
      return .notFound

/-- Looks for the declaration of a method from `name` on upwards. -/
def findFlag (method desc : String) (searchSuper : Bool) :
    (steps : Nat) → (name : String) → Inquiry (Option Bool)
  | 0, _ => return none
  | steps + 1, name => do
    if Names.isPlatform name then return some false
    match ← factOf name with
    | .notFound => return some true
    | .known facts =>
      match facts.check? method desc with
      | some flag => return some flag
      | none =>
        match searchSuper, facts.superName with
        | true, some parent => findFlag method desc searchSuper steps parent
        | _, _ => return none

/-- Whether a call may suspend. Constructors, initializers and methods of the platform never do; with
`searchSuper` a method may be declared by an ancestor. What cannot be found is taken to suspend. -/
def isSuspendable (owner method desc : String) (searchSuper : Bool) : Inquiry Bool := do
  if Names.isSpecial method || Names.isPlatform owner then return false
  match ← findFlag method desc searchSuper (← get).reach owner with
  | some flag => return flag
  | none =>
    log .warning (.methodNotFound owner method desc)
    return true

/-- The direct ancestor of a class. What the resolver has to say about it is kept. -/
def superOf (name : String) : Inquiry (Option String) := do
  let db ← get
  match db.fact? name with
  | some (.known facts) => return facts.superName
  | _ =>
    match db.supers.lookup name with
    | some parent => return some parent
    | none =>
      match (db.resolver.find name).bind (·.superName) with
      | some parent =>
        set { db with supers := (name, parent) :: db.supers }
        return some parent
      | none => return none

/-- The ancestors of a class up to the root, the class itself first. -/
def ancestors : (steps : Nat) → (name : String) → Inquiry (Option (List String))
  | 0, _ => return none
  | steps + 1, name => do
    if name = Names.object then return some [name]
    match ← superOf name with
    | some parent => return (← ancestors steps parent).map (name :: ·)
    | none =>
      log .warning (.noAncestor name)
      return none

/-- The longest common start of two lists. -/
def commonStart {α : Type} [DecidableEq α] : List α → List α → List α
  | a :: as, b :: bs => if a = b then a :: commonStart as bs else []
  | _, _ => []

/-- The most special class that two classes have in common, if both descend from the root. -/
def commonSuper (a b : String) : Inquiry (Option String) := do
  match ← ancestors (← get).reach a with
  | none => return none
  | some as =>
    match ← ancestors (← get).reach b with
    | none => return none
    | some bs => return (commonStart as.reverse bs.reverse).getLast?

/-- Whether a class can be thrown, walking up from it. -/
def descendsFromThrowable : (steps : Nat) → (name : String) → Inquiry Bool
  | 0, _ => return false
  | steps + 1, name => do
    if name = Names.throwable then return true
    if name = Names.object then return false
    match ← superOf name with
    | some parent => descendsFromThrowable steps parent
    | none =>
      log .warning (.noAncestor name)
      return false

/-- Whether a class can be thrown. -/
def isException (name : String) : Inquiry Bool := do
  descendsFromThrowable (← get).reach name

end Inquiry

end Resumable
