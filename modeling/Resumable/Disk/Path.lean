/-!
# Paths

A path is a text cut at its slashes. What it says is kept as it is written, because messages show it;
what it means is given by its components, in which empty segments and dots do not count.

Paths are ordered by their components, so a directory stands next to what is below it.
-/

namespace Resumable

/-- The pieces of a text between slashes. There is always at least one. -/
def splitSlashes : List Char → List (List Char)
  | [] => [[]]
  | c :: cs =>
    if c = '/' then [] :: splitSlashes cs
    else
      match splitSlashes cs with
      | [] => [[c]]
      | piece :: rest => (c :: piece) :: rest

/-- A path, cut at its slashes. The empty path is one empty segment. -/
structure Path where
  segments : List String
  deriving DecidableEq, Repr, Inhabited

/-- What a segment means. -/
inductive Component where
  | root
  | here
  | up
  | name (text : String)
  deriving DecidableEq, Repr, Ord

namespace Path

def ofText (s : String) : Path := ⟨(splitSlashes s.toList).map String.ofList⟩

def text (p : Path) : String := "/".intercalate p.segments

def isEmpty (p : Path) : Bool := p.segments.all (· == "") && p.segments.length ≤ 1

/-- The path starts at the root. -/
def isAbsolute (p : Path) : Bool := p.segments.head? == some "" && 2 ≤ p.segments.length

/-- The segment is passed over. -/
def isIdle (segment : String) : Bool := segment == "" || segment == "."

/-- What a segment behind the first one means. -/
def component? (segment : String) : Option Component :=
  if isIdle segment then none
  else some (if segment = ".." then .up else .name segment)

def components (p : Path) : List Component :=
  let first := match p.segments.head? with
    | some "" => if p.isAbsolute then [.root] else []
    | some "." => [.here]
    | some segment => (component? segment).toList
    | none => []
  first ++ p.segments.tail.filterMap component?

/-- Whether a path comes before another or is the same. -/
def le (p q : Path) : Bool := (compare p.components q.components).isLE

/-- Appends segments. The first takes the place of an empty one at the end. -/
def append (p : Path) (segments : List String) : Path :=
  if p.segments.getLast? == some "" then ⟨p.segments.dropLast ++ segments⟩
  else ⟨p.segments ++ segments⟩

/-- Appends a segment. -/
def push (p : Path) (segment : String) : Path := p.append [segment]

/-- The second path, seen from the first. -/
def join (p q : Path) : Path := if q.isAbsolute then q else p.append q.segments

/-- The path without idle segments at its end. The first segment stays. -/
def trim (p : Path) : Path :=
  match p.segments with
  | [] => p
  | first :: rest => ⟨first :: (rest.reverse.dropWhile isIdle).reverse⟩

/-- The name at the end. -/
def fileName? (p : Path) : Option String :=
  match p.trim.segments.getLast? with
  | some segment => if isIdle segment || segment == ".." then none else some segment
  | none => none

/-- The directory in which the path ends. -/
def parent? (p : Path) : Option Path :=
  match p.trim.segments with
  | [] => none
  | [first] => if first = "" then none else some (ofText "")
  | first :: rest =>
    let above : Path := trim ⟨(first :: rest).dropLast⟩
    some (if above.segments = [""] then ofText "/" else above)

/-- Cuts a name at its last dot. A dot in front does not count. -/
def splitName (name : String) : String × Option String :=
  let back := name.toList.reverse
  let ending := back.takeWhile (· != '.')
  match back.drop ending.length with
  | _ :: c :: stem =>
    (String.ofList (c :: stem).reverse, some (String.ofList ending.reverse))
  | _ => (name, none)

/-- What follows the last dot of the name at the end. -/
def extension? (p : Path) : Option String := p.fileName?.bind fun name => (splitName name).2

/-- The path with another extension. One that does not end in a name stays as it is. -/
def withExtension (p : Path) (ending : String) : Path :=
  match p.fileName? with
  | some name => ⟨p.trim.segments.dropLast ++ [(splitName name).1 ++ "." ++ ending]⟩
  | none => p

end Path

end Resumable
