import Resumable.Json.Number

/-!
# JSON text, as far as it goes

A text is read into a `Draft`: a value like any other JSON value, except that it may be broken off.
Whoever decodes a draft walks it in the order of the text, so of a misplaced value and a broken end
the one that comes first is reported. A value that is skipped is held only to the outer form of JSON;
for that a broken place keeps two faults, one for a reader and one for who passes over it.
-/

namespace Resumable.Json

/-- The three kinds of fault that a report tells apart. -/
inductive Category where
  /-- The text is no JSON. -/
  | malformed
  /-- The text ends too early. -/
  | ended
  /-- The value is not of the kind that is wanted. -/
  | unsuitable
  deriving DecidableEq, Repr

/-- What is wrong with a text. -/
inductive Fault where
  /-- The text ends where a value should start. -/
  | noValue
  /-- The text ends inside a number or a word. -/
  | cutShort
  | unclosedText
  | unclosedArray
  | unclosedObject
  /-- A character that cannot stand where it stands. -/
  | misplaced
  /-- Something else than a text in the place of a key. -/
  | keyNotText
  /-- More values than are wanted. -/
  | surplus
  /-- A number beyond the finite ones. -/
  | outOfRange
  /-- Arrays and objects nested too deeply. -/
  | tooDeep
  /-- A value of another kind than wanted. -/
  | mismatch
  | missing (key : String)
  | duplicate (key : String)
  | unknownTag (tag : String)
  deriving DecidableEq, Repr

def Fault.category : Fault → Category
  | .noValue | .cutShort | .unclosedText | .unclosedArray | .unclosedObject => .ended
  | .misplaced | .keyNotText | .surplus | .outOfRange | .tooDeep => .malformed
  | .mismatch | .missing _ | .duplicate _ | .unknownTag _ => .unsuitable

/-- What a text says. -/
inductive Draft where
  | null
  | bool (value : Bool)
  | num (number : NumberText)
  | str (value : String)
  | arr (items : List Draft)
  | obj (members : List (Except Fault String × Draft))
  /-- A place that cannot be read, and that can be skipped only without the second fault. -/
  | broken (reading : Fault) (skipping : Option Fault)
  deriving Inhabited

namespace Draft

/-! ### Characters and texts -/

def isBlank (c : Char) : Bool := c = ' ' || c = '\n' || c = '\t' || c = '\r'

def skipBlanks (cs : List Char) : List Char := cs.dropWhile isBlank

def hexValue? (c : Char) : Option Nat :=
  if '0' ≤ c ∧ c ≤ '9' then some (c.toNat - '0'.toNat)
  else if 'a' ≤ c ∧ c ≤ 'f' then some (c.toNat - 'a'.toNat + 10)
  else if 'A' ≤ c ∧ c ≤ 'F' then some (c.toNat - 'A'.toNat + 10)
  else none

/-- The number that four hexadecimal digits spell. -/
def hexUnit? (a b c d : Char) : Option Nat := do
  return ((← hexValue? a) * 16 + (← hexValue? b)) * 256 + (← hexValue? c) * 16 + (← hexValue? d)

/-- A piece of a text between quotes. -/
inductive Piece where
  | char (c : Char)
  /-- A 16-bit unit written in hexadecimal. -/
  | unit (n : Nat)

/-- The character that a letter stands for behind a backslash. -/
def escape? : Char → Option Char
  | '"' => some '"'
  | '\\' => some '\\'
  | '/' => some '/'
  | 'b' => some '\x08'
  | 'f' => some '\x0c'
  | 'n' => some '\n'
  | 'r' => some '\r'
  | 't' => some '\t'
  | _ => none

/-- The fault of an escape whose four digits are not there. -/
def badUnit (rest : List Char) : Fault :=
  if (String.ofList rest).utf8ByteSize < 4 then .unclosedText else .misplaced

/-- Cuts a text behind its opening quote into pieces, up to the closing quote. -/
def pieces : List Char → List Piece × Except Fault (List Char)
  | [] => ([], .error .unclosedText)
  | '"' :: rest => ([], .ok rest)
  | '\\' :: 'u' :: rest =>
    match rest with
    | a :: b :: c :: d :: rest' =>
      match hexUnit? a b c d with
      | some n =>
        let (more, after) := pieces rest'
        (.unit n :: more, after)
      | none => ([], .error (badUnit rest))
    | _ => ([], .error (badUnit rest))
  | '\\' :: c :: rest =>
    match escape? c with
    | some c' =>
      let (more, after) := pieces rest
      (.char c' :: more, after)
    | none => ([], .error .misplaced)
  | ['\\'] => ([], .error .unclosedText)
  | c :: rest =>
    if c.toNat < 0x20 then ([], .error .misplaced)
    else
      let (more, after) := pieces rest
      (.char c :: more, after)

/-- Joins pieces to characters. Units from the two surrogate ranges only count in pairs; `none` is a
unit without its partner. A high one at the very end may still find it if `isOpen`. -/
def joinPieces (isOpen : Bool) : List Piece → Option (List Char)
  | [] => some []
  | .char c :: rest => (c :: ·) <$> joinPieces isOpen rest
  | [.unit n] =>
    if 0xD800 ≤ n ∧ n ≤ 0xDFFF then
      if isOpen && n ≤ 0xDBFF then some [] else none
    else some [Char.ofNat n]
  | .unit n :: next :: rest =>
    if 0xDC00 ≤ n ∧ n ≤ 0xDFFF then none
    else if 0xD800 ≤ n ∧ n ≤ 0xDBFF then
      match next with
      | .unit low =>
        if 0xDC00 ≤ low ∧ low ≤ 0xDFFF then
          let code := 0x10000 + (n - 0xD800) * 0x400 + (low - 0xDC00)
          (Char.ofNat code :: ·) <$> joinPieces isOpen rest
        else none
      | .char _ => none
    else (Char.ofNat n :: ·) <$> joinPieces isOpen (next :: rest)

/-- A text behind its opening quote: what a reader makes of it, and what follows it. -/
def text (cs : List Char) : Except Fault String × Except Fault (List Char) :=
  match pieces cs with
  | (ps, .ok rest) =>
    match joinPieces false ps with
    | some s => (.ok (String.ofList s), .ok rest)
    | none => (.error .misplaced, .ok rest)
  | (ps, .error fault) =>
    match joinPieces true ps with
    | some _ => (.error fault, .error fault)
    | none => (.error .misplaced, .error fault)

/-! ### Numbers and words -/

def isDigit (c : Char) : Bool := '0' ≤ c && c ≤ '9'

def digitValues (cs : List Char) : List Nat := cs.map fun c => c.toNat - '0'.toNat

/-- A place where digits should stand: none are there. -/
def noDigits (rest : List Char) : Draft :=
  .broken (if rest.isEmpty then .cutShort else .misplaced) (some .misplaced)

/-- Takes the exponent of a number behind its `e`. -/
def exponent (n : NumberText) (cs : List Char) : Draft × Option (List Char) :=
  let (negative, cs) := match cs with
    | '+' :: rest => (false, rest)
    | '-' :: rest => (true, rest)
    | _ => (false, cs)
  let digits := cs.takeWhile isDigit
  let rest := cs.dropWhile isDigit
  if digits.isEmpty then (noDigits rest, none)
  else
    let e : Int := NumberText.ofDigits (digitValues digits)
    (.num { n with exponent := if negative then -e else e, isWhole := false }, some rest)

/-- Takes what may follow the digits of a number: an exponent or nothing. -/
def exponent? (n : NumberText) : List Char → Draft × Option (List Char)
  | 'e' :: rest => exponent n rest
  | 'E' :: rest => exponent n rest
  | rest => (.num n, some rest)

/-- Takes a number behind its sign. -/
def number (negative : Bool) (cs : List Char) : Draft × Option (List Char) :=
  let digits := cs.takeWhile isDigit
  let rest := cs.dropWhile isDigit
  let n : NumberText := ⟨negative, digitValues digits, [], 0, true⟩
  if digits.isEmpty then (noDigits rest, none)
  else if digits.head? == some '0' && digits.length != 1 then
    (.broken .misplaced (some .misplaced), none)
  else match rest with
    | '.' :: behind =>
      let fraction := behind.takeWhile isDigit
      let rest := behind.dropWhile isDigit
      if fraction.isEmpty then (noDigits rest, none)
      else exponent? { n with fraction := digitValues fraction, isWhole := false } rest
    | _ => exponent? n rest

/-- Takes the letters of a word behind its first one. -/
def word (value : Draft) : (letters cs : List Char) → Draft × Option (List Char)
  | [], cs => (value, some cs)
  | _ :: _, [] => (.broken .cutShort (some .cutShort), none)
  | l :: letters, c :: cs =>
    if l = c then word value letters cs else (.broken .misplaced (some .misplaced), none)

/-- A place where the text can neither be read nor skipped. -/
def stop (fault : Fault) : Draft × Option (List Char) := (.broken fault (some fault), none)

/-- What is reported of the value when another kind of value is wanted. A number counts as read, so
it must be in range. -/
def misfit : Draft → Fault
  | .broken reading _ => reading
  | .num n => if n.toInt?.isSome || n.toFloat?.isSome then .mismatch else .outOfRange
  | _ => .mismatch

/-! ### Values -/

mutual

/-- Takes a value; nothing follows one that is broken off. -/
def value : (fuel : Nat) → List Char → Draft × Option (List Char)
  | 0, _ => stop .misplaced
  | fuel + 1, cs =>
    match skipBlanks cs with
    | [] => stop .noValue
    | '"' :: rest =>
      match text rest with
      | (.ok s, .ok after) => (.str s, some after)
      | (.error fault, .ok after) => (.broken fault none, some after)
      | (.ok _, .error fault) => stop fault
      | (.error reading, .error skipping) => (.broken reading (some skipping), none)
    | '[' :: rest =>
      let (items, after) := items fuel true rest
      (.arr items, after)
    | '{' :: rest =>
      let (members, after) := members fuel true rest
      (.obj members, after)
    | 'n' :: rest => word .null ['u', 'l', 'l'] rest
    | 't' :: rest => word (.bool true) ['r', 'u', 'e'] rest
    | 'f' :: rest => word (.bool false) ['a', 'l', 's', 'e'] rest
    | '-' :: rest => number true rest
    | c :: rest => if isDigit c then number false (c :: rest) else stop .misplaced

/-- Takes the items of an array up to its bracket. -/
def items : (fuel : Nat) → (first : Bool) → List Char → List Draft × Option (List Char)
  | 0, _, _ => ([(stop .misplaced).1], none)
  | fuel + 1, first, cs =>
    match skipBlanks cs with
    | [] => ([(stop .unclosedArray).1], none)
    | ']' :: rest => ([], some rest)
    | c :: rest =>
      if !first && c != ',' then ([(stop .misplaced).1], none)
      else
        let start := skipBlanks (if first then c :: rest else rest)
        if !first && start.head? == some ']' then ([(stop .misplaced).1], none)
        else
          match value fuel start with
          | (item, none) => ([item], none)
          | (item, some after) =>
            let (more, end') := items fuel false after
            (item :: more, end')

/-- Takes the members of an object up to its brace. -/
def members : (fuel : Nat) → (first : Bool) → List Char →
    List (Except Fault String × Draft) × Option (List Char)
  | 0, _, _ => ([(.error .misplaced, (stop .misplaced).1)], none)
  | fuel + 1, first, cs =>
    let breakOff (fault : Fault) := ([(Except.error fault, (stop fault).1)], none)
    match skipBlanks cs with
    | [] => breakOff .unclosedObject
    | '}' :: rest => ([], some rest)
    | c :: rest =>
      if !first && c != ',' then breakOff .misplaced
      else
        match skipBlanks (if first then c :: rest else rest) with
        | [] => breakOff .noValue
        | '"' :: inside =>
          match text inside with
          | (key, .error fault) => ([(key, (stop fault).1)], none)
          | (key, .ok after) =>
            match skipBlanks after with
            | ':' :: behind =>
              match value fuel behind with
              | (v, none) => ([(key, v)], none)
              | (v, some after) =>
                let (more, end') := members fuel false after
                ((key, v) :: more, end')
            | [] => ([(key, (stop .unclosedObject).1)], none)
            | _ => ([(key, (stop .misplaced).1)], none)
        | _ => breakOff .keyNotText

end

/-! ### Passing over values -/

mutual

/-- What keeps a value from being skipped. -/
def skip? : Draft → Option Fault
  | .broken _ skipping => skipping
  | .arr items => skipItems? items
  | .obj members => skipMembers? members
  | _ => none

def skipItems? : List Draft → Option Fault
  | [] => none
  | item :: rest =>
    match item.skip? with
    | some fault => some fault
    | none => skipItems? rest

def skipMembers? : List (Except Fault String × Draft) → Option Fault
  | [] => none
  | (_, value) :: rest =>
    match value.skip? with
    | some fault => some fault
    | none => skipMembers? rest

end

/-- Passes over a value. -/
def skip (d : Draft) : Except Fault Unit :=
  match d.skip? with
  | some fault => .error fault
  | none => .ok ()

/-- The first member of an object with a key. -/
def member? (key : String) : Draft → Option Draft
  | .obj members => members.findSome? fun (k, d) => if k.toOption == some key then some d else none
  | _ => none

/-- A text as a draft, and whether something stands behind the value. -/
structure Document where
  root : Draft
  hasMore : Bool

/-- Each bracket, comma and value takes a character, and at most two steps go to each of them. -/
def document (s : String) : Document :=
  match value (2 * s.length + 2) s.toList with
  | (root, some rest) => ⟨root, !(skipBlanks rest).isEmpty⟩
  | (root, none) => ⟨root, false⟩

end Draft

/-! ### Decoding -/

/-- Makes a value of some kind from a draft. -/
abbrev Decoder (α : Type) := Draft → Except Fault α

/-- Decodes the whole of a text. -/
def Decoder.run {α : Type} (decode : Decoder α) (s : String) : Except Fault α := do
  let document := Draft.document s
  let a ← decode document.root
  if document.hasMore then throw .surplus
  return a

namespace Decoder

/-- A text. -/
def string : Decoder String
  | .str s => .ok s
  | d => .error d.misfit

/-- A whole number from `low` to `high`. -/
def integer (low high : Int) : Decoder Int
  | .num n =>
    match n.toInt? with
    | some v => if low ≤ v ∧ v ≤ high then .ok v else .error .mismatch
    | none => .error (Draft.num n).misfit
  | d => .error d.misfit

/-- A natural number below `2 ^ bits`. -/
def natural (bits : Nat) : Decoder Nat :=
  fun d => Int.toNat <$> integer 0 (Nat.pow 2 bits - 1) d

def uint16 : Decoder UInt16 := fun d => UInt16.ofNat <$> natural 16 d

def uint32 : Decoder UInt32 := fun d => UInt32.ofNat <$> natural 32 d

def uint64 : Decoder UInt64 := fun d => UInt64.ofNat <$> natural 64 d

def int32 : Decoder Int32 := fun d =>
  Int32.ofInt <$> integer Int32.minValue.toInt Int32.maxValue.toInt d

def int64 : Decoder Int64 := fun d =>
  Int64.ofInt <$> integer Int64.minValue.toInt Int64.maxValue.toInt d

/-- The bits of a 64-bit floating-point number. -/
def double : Decoder UInt64
  | .num n =>
    match n.toInt?, n.toFloat? with
    | some v, _ =>
      .ok (if v < 0 then (Int64.ofInt v).toFloat else (UInt64.ofNat v.toNat).toFloat).toBits
    | none, some x => .ok x.toBits
    | none, none => .error .outOfRange
  | d => .error d.misfit

/-- The bits of a 32-bit floating-point number. Whole numbers are rounded once, any others first to
64 bits. -/
def single : Decoder UInt32
  | .num n =>
    match n.toInt?, n.toFloat? with
    | some v, _ =>
      .ok (if v < 0 then (Int64.ofInt v).toFloat32 else (UInt64.ofNat v.toNat).toFloat32).toBits
    | none, some x => .ok x.toFloat32.toBits
    | none, none => .error .outOfRange
  | d => .error d.misfit

/-- Null or a value. -/
def option {α : Type} (decode : Decoder α) : Decoder (Option α)
  | .null => .ok none
  | d => some <$> decode d

/-- Null. -/
def null : Decoder Unit
  | .null => .ok ()
  | d => .error d.misfit

/-- An array of values of one kind. -/
def list {α : Type} (decode : Decoder α) : Decoder (List α)
  | .arr items => items.mapM decode
  | d => .error d.misfit

/-- What is reported of an item behind the last one that is wanted: a text that just ends is still
an open array. -/
def surplusItem : Draft → Fault
  | .broken .unclosedArray _ => .unclosedArray
  | _ => .surplus

/-- A field of a record: how its value changes the record. -/
structure RecordField (σ : Type) where
  key : String
  required : Bool
  decode : σ → Decoder σ

/-- The field that a record needs and that has not been seen. -/
def missingField? {σ : Type} (fields : List (RecordField σ)) (seen : List String) :
    Option String :=
  (fields.find? fun f => f.required && !seen.contains f.key).map (·.key)

/-- Takes the members of a record. Unknown keys are skipped, a second value for a key refused. -/
def recordMembers {σ : Type} (fields : List (RecordField σ)) :
    (seen : List String) → σ → List (Except Fault String × Draft) → Except Fault σ
  | seen, s, [] =>
    match missingField? fields seen with
    | some key => .error (.missing key)
    | none => .ok s
  | _, _, (.error fault, _) :: _ => .error fault
  | seen, s, (.ok key, d) :: rest =>
    match fields.find? (·.key == key) with
    | none => do
      d.skip
      recordMembers fields seen s rest
    | some f => do
      if seen.contains key then throw (.duplicate key)
      let s ← f.decode s d
      recordMembers fields (key :: seen) s rest

/-- Takes the items of a record that is written as an array, field by field. Only fields that are
not required may be left out at the end. -/
def recordItems {σ : Type} : List (RecordField σ) → σ → List Draft → Except Fault σ
  | [], s, [] => .ok s
  | [], _, d :: _ => .error (surplusItem d)
  | f :: fields, s, [] =>
    if f.required then .error (.missing f.key) else recordItems fields s []
  | f :: fields, s, d :: rest => do recordItems fields (← f.decode s d) rest

/-- A record, from an object or from an array in the order of the fields. -/
def record {σ : Type} (fields : List (RecordField σ)) (init : σ) : Decoder σ
  | .obj members => recordMembers fields [] init members
  | .arr items => recordItems fields init items
  | d => .error d.misfit

/-- A record that may not be written as an array. -/
def named {α : Type} (decode : Decoder α) : Decoder α
  | .arr _ => .error .mismatch
  | d => decode d

/-- A field that must be given. -/
def required {σ α : Type} (key : String) (decode : Decoder α) (set : σ → α → σ) :
    RecordField σ :=
  ⟨key, true, fun s d => set s <$> decode d⟩

/-- A field that may be left out. -/
def optional {σ α : Type} (key : String) (decode : Decoder α) (set : σ → α → σ) :
    RecordField σ :=
  ⟨key, false, fun s d => set s <$> decode d⟩

/-- A record of two fields. -/
def pair {α β : Type} [Inhabited α] [Inhabited β] (key₁ : String) (first : Decoder α)
    (key₂ : String) (second : Decoder β) : Decoder (α × β) :=
  record [required key₁ first fun s a => (a, s.2), required key₂ second fun s b => (s.1, b)]
    default

/-- One of several named alternatives: a tag alone, or an object with the tag as its only key. A tag
alone comes with no draft. -/
def choice {α : Type} (alternative? : String → Option (Option Draft → Except Fault α)) :
    Decoder α
  | .str tag =>
    match alternative? tag with
    | some decode => decode none
    | none => .error (.unknownTag tag)
  | .obj [] => .error .misplaced
  | .obj ((.error fault, _) :: _) => .error fault
  | .obj ((.ok tag, d) :: rest) =>
    match alternative? tag with
    | none => .error (.unknownTag tag)
    | some decode => do
      let a ← decode (some d)
      match rest with
      | [] => return a
      | (.error .unclosedObject, _) :: _ => throw .unclosedObject
      | _ => throw .misplaced
  | .broken .cutShort _ => .error .misplaced
  | .broken reading _ => .error reading
  | _ => .error .misplaced

/-- An alternative without a value: its tag alone, or with null. -/
def bare {α : Type} (a : α) : Option Draft → Except Fault α
  | none => .ok a
  | some d => do
    null d
    return a

/-- An alternative with a value. -/
def carrying {α : Type} (decode : Decoder α) : Option Draft → Except Fault α
  | none => .error .mismatch
  | some d => decode d

/-! Where only some members of an object matter, they are looked up by their keys. -/

/-- A member of an object. -/
def keyed {α : Type} (key : String) (decode : Decoder α) : Decoder α := fun d =>
  match d.member? key with
  | some value => decode value
  | none => .error (.missing key)

/-- A member that may be left out or null. -/
def keyed? {α : Type} (key : String) (decode : Decoder α) : Decoder (Option α) := fun d =>
  match d.member? key with
  | some value => option decode value
  | none => .ok none

end Decoder

end Resumable.Json
