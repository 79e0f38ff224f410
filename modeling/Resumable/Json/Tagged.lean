import Resumable.Json.Draft

/-!
# Alternatives with a tag of their own

Two more ways to write one of several alternatives: with the tag and the value side by side under two
keys, or with the tag as one more member of the record. The tag need not come first. What stands in
front of it is then held back, which takes a whole value that is not nested too deeply; whatever is
wrong with it later is its kind and no longer its form.
-/

namespace Resumable.Json

/-- How many arrays and objects may be nested. -/
def maxNesting : Nat := 127

namespace Draft

mutual

/-- What keeps a value from being held back inside a place where `room` more levels are allowed. -/
def holdFault? (room : Nat) : Draft → Option Fault
  | .broken reading _ => some reading
  | .num n =>
    match (Draft.num n).misfit with
    | .outOfRange => some .outOfRange
    | _ => none
  | .arr items => if room = 0 then some .tooDeep else holdItems? (room - 1) items
  | .obj members => if room = 0 then some .tooDeep else holdMembers? (room - 1) members
  | _ => none

def holdItems? (room : Nat) : List Draft → Option Fault
  | [] => none
  | item :: rest =>
    match item.holdFault? room with
    | some fault => some fault
    | none => holdItems? room rest

def holdMembers? (room : Nat) : List (Except Fault String × Draft) → Option Fault
  | [] => none
  | (.error fault, _) :: _ => some fault
  | (.ok _, value) :: rest =>
    match value.holdFault? room with
    | some fault => some fault
    | none => holdMembers? room rest

end

/-- Holds a value back inside `depth` levels. -/
def hold (depth : Nat) (d : Draft) : Except Fault Unit :=
  match d.holdFault? (maxNesting - depth) with
  | some fault => .error fault
  | none => .ok ()

end Draft

namespace Decoder

/-- Decodes a value that was held back: only its kind can be wrong. -/
def held {α : Type} (x : Except Fault α) : Except Fault α := x.mapError fun _ => .mismatch

/-- The members of an object from the first one on whose key is wanted. -/
def nextMember (wanted : List String) :
    List (Except Fault String × Draft) →
      Except Fault (Option (String × Draft × List (Except Fault String × Draft)))
  | [] => .ok none
  | (.error fault, _) :: _ => .error fault
  | (.ok key, d) :: rest =>
    if wanted.contains key then .ok (some (key, d, rest))
    else do
      d.skip
      nextMember wanted rest

/-- Refuses another member with one of the keys. -/
def noMember (wanted : List String) (members : List (Except Fault String × Draft)) :
    Except Fault Unit := do
  match ← nextMember wanted members with
  | some (key, _) => throw (.duplicate key)
  | none => return

/-- An alternative of an object with its tag under one key and its value under another, or of an
array of the two. In the object the tag may itself be written as an alternative without a value; in
the array it is a text. The object stands inside `depth` levels, itself counted. -/
def beside {α : Type} (depth : Nat) (tagKey valueKey : String)
    (alternative? : String → Option (Option Draft → Except Fault α)) : Decoder α :=
  let keys := [tagKey, valueKey]
  let tag : Decoder (Option Draft → Except Fault α) :=
    choice fun t => (alternative? t).map bare
  fun
    | .obj members => do
      match ← nextMember keys members with
      | none => throw (.missing tagKey)
      | some (key, d, rest) =>
        if key == tagKey then
          let decode ← tag d
          match ← nextMember keys rest with
          | none => decode none
          | some (key, d, rest) =>
            if key == tagKey then throw (.duplicate key)
            let a ← decode (some d)
            noMember keys rest
            return a
        else
          d.hold depth
          match ← nextMember keys rest with
          | none => throw (.missing tagKey)
          | some (key, t, rest) =>
            if key != tagKey then throw (.duplicate key)
            let decode ← tag t
            let a ← held (decode (some d))
            noMember keys rest
            return a
    | .arr [] => .error .mismatch
    | .arr (t :: rest) => do
      let t ← string t
      let some decode := alternative? t | throw (.unknownTag t)
      match rest with
      | [] => throw .mismatch
      | d :: more =>
        let a ← decode (some d)
        match more with
        | [] => return a
        | d :: _ => throw (surplusItem d)
    | d => .error d.misfit

/-- Splits the members of an object into the tag and all others, which are held back. -/
def splitTag (depth : Nat) (tagKey : String) (isTag : String → Bool) :
    Option String → List (Except Fault String × Draft) →
      Except Fault (Option String × List (Except Fault String × Draft))
  | tag, [] => .ok (tag, [])
  | _, (.error fault, _) :: _ => .error fault
  | tag, (.ok key, d) :: rest =>
    if key == tagKey then do
      if tag.isSome then throw (.duplicate key)
      let t ← string d
      if !isTag t then throw (.unknownTag t)
      splitTag depth tagKey isTag (some t) rest
    else do
      d.hold depth
      let (tag, others) ← splitTag depth tagKey isTag tag rest
      return (tag, (.ok key, d) :: others)

/-- An alternative whose tag is one of its members, or the first item of its array. The value stands
inside `depth` levels, itself counted. -/
def within {α : Type} (depth : Nat) (tagKey : String)
    (alternative? : String → Option (Decoder α)) : Decoder α
  | .obj members => do
    match ← splitTag depth tagKey (fun t => (alternative? t).isSome) none members with
    | (none, _) => throw (.missing tagKey)
    | (some t, others) =>
      match alternative? t with
      | some decode => held (decode (.obj others))
      | none => throw (.unknownTag t)
  | .arr [] => .error (.missing tagKey)
  | .arr (t :: rest) => do
    let t ← string t
    match alternative? t with
    | none => throw (.unknownTag t)
    | some decode =>
      for d in rest do d.hold depth
      held (decode (.arr rest))
  | d => .error d.misfit

end Decoder

end Resumable.Json
