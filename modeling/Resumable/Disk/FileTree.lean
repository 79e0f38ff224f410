import Resumable.Disk.Path

/-!
# File trees

A tree of directories and files, held as a table: each place stands with what is there. A place is
the list of names that lead to it from the root, and a path leads to a place by one step for each
segment, every step but the last ending in a directory.

Making directories and writing files may fail: where a file is in the way, where a directory should
be overwritten, or where a name cannot be one.
-/

namespace Resumable

/-- A place in a tree: the names that lead there from the root. -/
abbrev Place := List String

/-- What is at a place. -/
inductive Node where
  | dir
  | file (bytes : List UInt8)
  deriving DecidableEq, Repr, Inhabited

/-- A tree of directories and files. -/
structure FileTree where
  nodes : List (Place × Node) := []
  /-- Where relative paths start. -/
  start : Place := []
  deriving DecidableEq, Repr, Inhabited

/-- How many bytes a name may have. -/
def maxNameLength : Nat := 255

/-- Whether something can have the name. -/
def isFileName (name : String) : Bool :=
  name != "" && name.utf8ByteSize ≤ maxNameLength && !name.toList.contains '\x00'

namespace FileTree

/-- What is at a place. The root is always there. -/
def node? (t : FileTree) (place : Place) : Option Node :=
  if place.isEmpty then some .dir else t.nodes.lookup place

/-- The tree with something else at a place. -/
def put (t : FileTree) (place : Place) (node : Node) : FileTree :=
  { t with nodes := (place, node) :: t.nodes.filter (·.1 != place) }

theorem node?_put_self (t : FileTree) {place : Place} (node : Node) (h : place ≠ []) :
    (t.put place node).node? place = some node := by
  cases place with
  | nil => exact absurd rfl h
  | cons name rest => simp [node?, put]

theorem node?_put_of_ne (t : FileTree) {place other : Place} (node : Node) (h : other ≠ place) :
    (t.put place node).node? other = t.node? other := by
  unfold node? put
  split
  · rfl
  · have hne : (other == place) = false := by simpa using h
    rw [List.lookup_cons, hne]
    induction t.nodes with
    | nil => rfl
    | cons entry nodes ih =>
      obtain ⟨here, node'⟩ := entry
      by_cases hp : here = place
      · subst hp
        simp only [bne_self_eq_false, List.filter_cons, Bool.false_eq_true, if_false]
        rw [List.lookup_cons, hne]
        exact ih
      · have hb : (here != place) = true := by simpa using hp
        simp only [List.filter_cons, hb, if_true, List.lookup_cons]
        split
        · rfl
        · exact ih

/-! ### Following paths -/

/-- A step along a path. -/
def step? (t : FileTree) (place : Place) (segment : String) : Option Place :=
  match t.node? place with
  | some .dir =>
    some <|
      if Path.isIdle segment then place
      else if segment = ".." then place.dropLast
      else place ++ [segment]
  | _ => none

def origin (t : FileTree) (p : Path) : Place := if p.isAbsolute then [] else t.start

/-- The place to which a path leads. Something need not be there yet. -/
def place? (t : FileTree) (p : Path) : Option Place :=
  if p.isEmpty then none else p.segments.foldlM t.step? (t.origin p)

/-- What is at the end of a path. -/
def find? (t : FileTree) (p : Path) : Option Node := (t.place? p).bind t.node?

def isDir (t : FileTree) (p : Path) : Bool := t.find? p == some .dir

/-- The bytes of a file. -/
def read? (t : FileTree) (p : Path) : Option (List UInt8) :=
  match t.find? p with
  | some (.file bytes) => some bytes
  | _ => none

def isFile (t : FileTree) (p : Path) : Bool := (t.read? p).isSome

/-- The paths of all files below a directory, as seen from it. -/
def filesBelow (t : FileTree) (place : Place) : List (List String) :=
  t.nodes.filterMap fun (here, node) =>
    match node with
    | .dir => none
    | .file _ => place.isPrefixOf? here

/-! ### Changing the tree -/

/-- A step along a path that makes a directory where nothing is. -/
def enter? (t : FileTree) (place : Place) (segment : String) : Option (FileTree × Place) := do
  let next ← t.step? place segment
  match t.node? next with
  | some .dir => return (t, next)
  | some (.file _) => none
  | none => if isFileName segment then return (t.put next .dir, next) else none

/-- Makes all directories along a path. What has been made stays if one cannot be made. -/
def enterAll (t : FileTree) (place : Place) : List String → FileTree × Bool
  | [] => (t, true)
  | segment :: rest =>
    match t.enter? place segment with
    | none => (t, false)
    | some (t, next) => t.enterAll next rest

/-- Makes a directory and all above it. Says whether it is there now. -/
def makeDirs (t : FileTree) (p : Path) : FileTree × Bool :=
  if p.isEmpty then (t, true) else t.enterAll (t.origin p) p.segments

/-- Writes a file, new or in the place of an old one. -/
def write? (t : FileTree) (p : Path) (bytes : List UInt8) : Option FileTree := do
  let place ← t.place? p
  match t.node? place with
  | some .dir => none
  | some (.file _) => return t.put place (.file bytes)
  | none => if place.getLast?.all isFileName then return t.put place (.file bytes) else none

/-- The files of a tree that are not in an older one, with their places. -/
def newFiles (t old : FileTree) : List (Place × List UInt8) :=
  t.nodes.filterMap fun (place, node) =>
    match node, old.node? place with
    | .file bytes, none => some (place, bytes)
    | _, _ => none

end FileTree

end Resumable
