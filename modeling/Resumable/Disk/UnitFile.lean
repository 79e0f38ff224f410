import Resumable.Binary.ClassFile
import Resumable.ClassDef.Json
import Resumable.Disk.FileTree
import Resumable.Suspendable.Database

/-!
# Unit files

A class is kept in a file, in binary form or as JSON; the extension says which. A file stands below a
root in the directories that the name of its class spells, and there it is looked for when an
ancestor is needed.

The extension takes the place of whatever follows a dot in the last part of the class's name, so two
classes can have the same file.
-/

namespace Resumable

/-- How a class is written in a file. -/
inductive UnitFormat where
  | binary
  | json
  deriving DecidableEq, Repr, Inhabited

/-- Why the bytes of a file are no class. -/
inductive UnitFault where
  | notText
  | binary (cause : Binary.ClassFileError)
  | json (cause : Json.Fault)
  deriving Repr

/-- What goes wrong with files. -/
inductive FileError where
  /-- A file that is named has no extension of a unit. -/
  | notUnit (p : Path)
  | notFound (p : Path)
  | unknownFormat (p : Path)
  | unreadable (p : Path)
  | malformed (p : Path) (fault : UnitFault)
  | cannotCreate (p : Path)
  | cannotWrite (p : Path)
  deriving Repr

def FileError.message : FileError → String
  | .notUnit p => s!"Not a unit file (expected .rvc or .json): {p.text}"
  | .notFound p => s!"File not found: {p.text}"
  | .unknownFormat p => s!"Unknown unit format: {p.text}"
  | .unreadable p | .malformed p .notText => s!"Failed to read {p.text}"
  | .malformed p (.binary _) => s!"Failed to decode {p.text}"
  | .malformed p (.json _) => s!"Failed to parse {p.text}"
  | .cannotCreate p => s!"Failed to create {p.text}"
  | .cannotWrite p => s!"Failed to write {p.text}"

namespace UnitFormat

def all : List UnitFormat := [.binary, .json]

def ending : UnitFormat → String
  | .binary => "rvc"
  | .json => "json"

/-- The format that the extension of a path stands for. -/
def ofPath? (p : Path) : Option UnitFormat := all.find? fun f => p.extension? == some f.ending

def encode (f : UnitFormat) (c : ClassDef) : List UInt8 :=
  match f with
  | .binary => Binary.ofClass c
  | .json => Binary.utf8 c.toJson.pretty

def decode (f : UnitFormat) (bytes : List UInt8) : Except UnitFault ClassDef :=
  match f with
  | .binary => (Binary.toClass bytes).mapError .binary
  | .json =>
    match String.fromUTF8? ⟨bytes.toArray⟩ with
    | none => .error .notText
    | some s => (ClassDef.ofJson s).mapError .json

end UnitFormat

/-- The file for a class below a root. -/
def unitPath (root : Path) (name : String) (f : UnitFormat) : Path :=
  ((Path.ofText name).segments.foldl Path.push root).withExtension f.ending

namespace FileTree

/-- Reads a class. -/
def readUnit (t : FileTree) (p : Path) : Except FileError (ClassDef × UnitFormat) :=
  match UnitFormat.ofPath? p with
  | none => .error (.unknownFormat p)
  | some f =>
    match t.read? p with
    | none => .error (.unreadable p)
    | some bytes =>
      match f.decode bytes with
      | .ok c => .ok (c, f)
      | .error fault => .error (.malformed p fault)

/-- Writes a class below a root, with the directories for it. -/
def writeUnit (t : FileTree) (root : Path) (c : ClassDef) (f : UnitFormat) :
    FileTree × Except FileError Unit :=
  let p := unitPath root c.name f
  let (t, made) := match p.parent? with
    | some above => t.makeDirs above
    | none => (t, true)
  if !made then (t, .error (.cannotCreate (p.parent?.getD p)))
  else
    match t.write? p (f.encode c) with
    | some t => (t, .ok ())
    | none => (t, .error (.cannotWrite p))

/-! ### Collecting -/

/-- A name that starts with a dot is passed over. -/
def isHidden (name : String) : Bool := name.toList.head? == some '.'

/-- The unit files for a path: the file itself, or those below the directory that are not hidden. -/
def unitFiles (t : FileTree) (p : Path) : Except FileError (List Path) :=
  match (t.place? p).map fun place => (place, t.node? place) with
  | some (place, some .dir) =>
    .ok <| ((t.filesBelow place).filter (!·.any isHidden)).map (·.foldl Path.push p)
      |>.filter fun file => (UnitFormat.ofPath? file).isSome
  | some (_, some (.file _)) =>
    if (UnitFormat.ofPath? p).isSome then .ok [p] else .error (.notUnit p)
  | _ => .error (.notFound p)

/-- The unit files for some paths, in the order of paths. -/
def collect (t : FileTree) (paths : List Path) : Except FileError (List Path) := do
  return (← paths.mapM t.unitFiles).flatten.mergeSort Path.le

/-! ### Classes of other units -/

/-- The class with a name in the first file for it that has one. A file with another class, or with
none, is passed over. -/
def findClass? (t : FileTree) (roots : List Path) (name : String) : Option ClassDef :=
  roots.findSome? fun root => UnitFormat.all.findSome? fun f =>
    match t.readUnit (unitPath root name f) with
    | .ok (c, _) => if c.name = name then some c else none
    | .error _ => none

/-- The names of all classes that files of the tree can be read as. -/
def classNames (t : FileTree) : List String :=
  t.nodes.flatMap fun (_, node) =>
    match node with
    | .dir => []
    | .file bytes =>
      UnitFormat.all.filterMap fun f => ((f.decode bytes).toOption).map (·.name)

theorem mem_nodes_of_read? {t : FileTree} {p : Path} {bytes : List UInt8}
    (h : t.read? p = some bytes) : ∃ place, (place, Node.file bytes) ∈ t.nodes := by
  unfold read? find? at h
  cases hp : t.place? p with
  | none => simp [hp] at h
  | some place =>
    simp only [hp, Option.bind_some] at h
    unfold node? at h
    split at h
    · rename_i b hb
      split at hb
      · simp at hb
      · obtain ⟨x, y, e, -⟩ := List.lookup_eq_some_iff.1 hb
        cases h
        exact ⟨place, e ▸ by simp⟩
    · simp at h

theorem name_mem_of_readUnit {t : FileTree} {p : Path} {c : ClassDef} {f : UnitFormat}
    (h : t.readUnit p = .ok (c, f)) : c.name ∈ t.classNames := by
  unfold readUnit at h
  split at h
  · cases h
  split at h
  · cases h
  · rename_i bytes hbytes
    obtain ⟨place, hplace⟩ := mem_nodes_of_read? hbytes
    split at h
    · rename_i hd
      cases h
      refine List.mem_flatMap.2 ⟨_, hplace, List.mem_filterMap.2 ⟨f, ?_, ?_⟩⟩
      rotate_left
      · simp [hd, Except.toOption]
      cases f <;> simp [UnitFormat.all]
    · cases h

theorem name_mem_of_findClass? {t : FileTree} {roots : List Path} {name : String} {c : ClassDef}
    (h : t.findClass? roots name = some c) : name ∈ t.classNames := by
  obtain ⟨root, -, h⟩ := List.exists_of_findSome?_eq_some h
  obtain ⟨f, -, h⟩ := List.exists_of_findSome?_eq_some h
  split at h
  · rename_i c' g hr
    split at h
    · rename_i hname
      exact hname ▸ name_mem_of_readUnit hr
    · cases h
  · cases h

/-- Looks classes up in the files below some roots. -/
def resolver (t : FileTree) (roots : List Path) : Resolver where
  find := t.findClass? roots
  names := t.classNames
  find_mem := name_mem_of_findClass?

end FileTree

end Resumable
