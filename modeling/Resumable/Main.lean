import Resumable.Tool.CommandLine

/-!
# The program

The outer layer: it reads the files that a command needs into a tree, runs the command on the tree,
prints what it came to, and writes what has changed.
-/

namespace Resumable.Disk

/-- The place of a path that is seen from another place. -/
def placeFrom (start : Place) (p : Path) : Place :=
  p.segments.foldl
    (fun place segment =>
      if Path.isIdle segment then place
      else if segment = ".." then place.dropLast
      else place ++ [segment])
    (if p.isAbsolute then [] else start)

/-- The text of a place. -/
def placeText (place : Place) : String := "/" ++ "/".intercalate place

/-- Puts the directories on the way to a place into a tree, the place itself included. -/
def loadAbove (t : FileTree) (place : Place) : IO FileTree :=
  (List.range place.length).foldlM
    (fun t n => do
      let here := place.take (n + 1)
      let isDir ← ((← IO.currentDir) / placeText here).isDir
      return if isDir then t.put here .dir else t)
    t

/-- Puts a file into a tree. Of a file that is no unit only its place matters. -/
def loadFile (t : FileTree) (place : Place) : IO FileTree := do
  let p := Path.ofText (placeText place)
  if (UnitFormat.ofPath? p).isNone then return t.put place (.file [])
  try
    return t.put place (.file (← IO.FS.readBinFile p.text).toList)
  catch _ => return t

/-- Puts what is at a path, and everything below it, into a tree. -/
def load (t : FileTree) (p : Path) : IO FileTree := do
  let place := placeFrom t.start p
  let t ← loadAbove t place
  let here := (← IO.currentDir) / placeText place
  if ← here.isDir then
    (← here.walkDir).foldlM
      (fun t below => do
        let place := placeFrom [] (.ofText below.toString)
        if ← below.isDir then return t.put place .dir else loadFile t place)
      t
  else if ← here.pathExists then loadFile t place
  else return t

/-- Writes what has changed in a tree. -/
def store (files : List (Place × Node)) : IO Unit :=
  files.forM fun (place, node) =>
    match node with
    | .dir => IO.FS.createDirAll (placeText place)
    | .file bytes => IO.FS.writeBinFile (placeText place) ⟨bytes.toArray⟩

/-- The tree that a command needs. -/
def treeFor (c : Command) : IO FileTree := do
  let start := placeFrom [] (.ofText (← IO.currentDir).toString)
  let t ← loadAbove { start } start
  let t ← c.sources.foldlM load t
  match c with
  | .instrument b => loadAbove t (placeFrom start b.target)
  | _ => return t

end Resumable.Disk

open Resumable

def main (arguments : List String) : IO UInt32 := do
  match Command.ofArguments arguments with
  | .error e =>
    IO.eprintln s!"error: {e.message}"
    return 2
  | .ok command =>
    let outcome := command.run (← Disk.treeFor command)
    Disk.store outcome.files
    IO.print outcome.output
    outcome.remarks.forM fun line => IO.eprintln line
    match outcome.failure with
    | none => return 0
    | some why =>
      IO.eprintln s!"Error: {why}"
      return 1
