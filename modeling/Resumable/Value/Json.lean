import Resumable.RunError
import Resumable.Value.Literal
import Resumable.Value.Graph
import Resumable.ClassDef.Json

/-!
# The JSON form of values

A value is an array: the word for its type, and what it holds. Long numbers are written as texts and
floating-point numbers as the hexadecimal digits of their bits, so that nothing is rounded; of
numbers that are none only this is kept. An object or array that has come up before is written as a
reference to it, by the order of the first visit.

What is read is a literal: it makes new objects and arrays, and may name a value that is there.
-/

namespace Resumable

open Json (Decoder Draft Fault)

/-! ### Writing -/

namespace Json

/-- The bits of a number as hexadecimal digits. -/
def bits (tag : String) (width bits : Nat) (layout : Decimal.Layout) : Json :=
  let digits := Text.hexDigits bits
  .arr [.str tag, .str <| match layout.decode bits with
    | .nan => "nan"
    | _ => "".pushn '0' (width - digits.length) ++ digits]

end Json

namespace Heap

/-- Numbers a cell, unless it has a number already. -/
def visit (c : Cell) (fresh : StateM (List Cell) (List Json)) : StateM (List Cell) Json := do
  match (← get).idxOf? c with
  | some index => return .arr [.str "ref", .nat index]
  | none =>
    modify (· ++ [c])
    return .arr (← fresh)

/-- Writes a value inside at most `depth` others. -/
def dumpWithin (h : Heap) : (depth : Nat) → Value → StateM (List Cell) Json
  | _, .null => return .arr [.str "null"]
  | _, .int v => return .arr [.str "int", .int v.toInt]
  | _, .long v => return .arr [.str "long", .str (toString v.toInt)]
  | _, .float bits => return .bits "float" 8 bits.toNat .single
  | _, .double bits => return .bits "double" 16 bits.toNat .double
  | _, .str s => return .arr [.str "str", .str s]
  | 0, .object id => visit (.object id) (return [])
  | 0, .array id => visit (.array id) (return [])
  | depth + 1, .object id => visit (.object id) do
    let o := h.object id
    let fields ← o.fields.mapM fun (name, v) =>
      return .arr [.str name, ← h.dumpWithin depth v]
    return [.str "obj", .str o.type, .arr fields]
  | depth + 1, .array id => visit (.array id) do
    return [.str "arr", .arr (← (h.items id).toList.mapM (h.dumpWithin depth))]

/-- The JSON form of a value and everything that it refers to. A value is never inside more others
than there are objects and arrays, since each of them is opened only once. -/
def dump (h : Heap) (v : Value) : Json :=
  ((h.dumpWithin (h.objects.size + h.arrays.size) v).run []).1

end Heap

namespace RunError

/-- The word for the kind of an error in reports. -/
def kind : RunError → String
  | .thrown _ => "Thrown"
  | .invalidState _ => "InvalidState"
  | .notInstrumented => "NotInstrumented"
  | .illegalArgument _ => "IllegalArgument"
  | .exhausted => "Exhausted"
  | .noSuchClass _ => "NoSuchClass"
  | .noSuchMethod _ => "NoSuchMethod"
  | .noSuchField _ => "NoSuchField"
  | .nullPointer => "NullPointer"
  | .type _ => "TypeError"
  | .stackUnderflow => "StackUnderflow"
  | .arithmetic _ => "ArithmeticError"
  | .snapshot _ => "Snapshot"
  | .verify _ => "Verify"
  | .code _ => "RuntimeError"

/-- A report of an error. For an exception it shows the value, and whether it is the signal. -/
def toJson (h : Heap) (e : RunError) : Json :=
  .obj ([("error", .str e.kind), ("message", .str (e.message h))] ++
    match e with
    | .thrown v => [("value", h.dump v), ("signal", .bool (v == Heap.signal))]
    | _ => [])

/-- A report of an outcome. -/
def report {α : Type} (h : Heap) (f : α → Json) : Except RunError α → Json
  | .ok a => f a
  | .error e => e.toJson h

end RunError

/-! ### Reading -/

namespace Json.Decoder

/-- A 64-bit integer, as a number or as a text. -/
def longText : Decoder Int64
  | .str s =>
    match s.toInt? with
    | some v => .ok (Int64.ofInt v)
    | none => .error .mismatch
  | d => int64 d

/-- Bits as hexadecimal digits; `nan` stands for the number that is none with only its first
fraction bit set. -/
def bits (nan : Nat) : Decoder Nat
  | .str s =>
    if s = "nan" then .ok nan
    else
      match s.toList.mapM Draft.hexValue? with
      | some digits => .ok (digits.foldl (16 * · + ·) 0)
      | none => .error .mismatch
  | d => .error d.misfit

/-- A value without parts, by the word for its type. -/
def plainValue (type : String) (d : Draft) : Except Fault Literal :=
  match type with
  | "int" => (.plain <| .int ·) <$> int32 d
  | "long" => (.plain <| .long ·) <$> longText d
  | "float" => (fun n => .plain (.float (UInt32.ofNat n))) <$> bits 0x7fc00000 d
  | "double" => (fun n => .plain (.double (UInt64.ofNat n))) <$> bits 0x7ff8000000000000 d
  | "str" => (.plain <| .str ·) <$> string d
  | "var" => .var <$> string d
  | _ => .error (.unknownTag type)

mutual

def literal : Decoder Literal
  | .arr [.str "null"] => .ok (.plain .null)
  | .arr [.str "arr", .arr ds] => .array <$> literals ds
  | .arr [.str "obj", .str type, .arr ds] => .object type <$> literalFields ds
  | .arr [.str type, d] => plainValue type d
  | d => .error d.misfit

def literals : List Draft → Except Fault (List Literal)
  | [] => .ok []
  | d :: rest => return (← literal d) :: (← literals rest)

def literalFields : List Draft → Except Fault (List (String × Literal))
  | [] => .ok []
  | .arr [.str name, d] :: rest => return (name, ← literal d) :: (← literalFields rest)
  | d :: _ => .error d.misfit

end

end Json.Decoder

end Resumable
