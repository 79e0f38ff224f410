import Resumable.RunError

/-!
# Arithmetic

The operations on primitives, as tables over the opcodes: of which kind the operands are, and what
comes out. Integers wrap around and are divided toward zero. Floating-point numbers follow the usual
rules on their bits; `Single.keepNaN` and `Double.keepNaN` say which bits come out when a number is
none.
-/

namespace Resumable

/-- Two values compared: 1, 0 or -1. A number that is none compares as less. -/
def ordering (isGreater isEqual : Bool) : Value :=
  .int (if isGreater then 1 else if isEqual then 0 else -1)

/-! ### Floating-point numbers -/

namespace Single

def isNaN (bits : UInt32) : Bool := 0x7F800000 < bits &&& 0x7FFFFFFF

/-- The first operand that is no number comes out, with its first fraction bit set; if there is none
and the result is no number, it is the negative one with no other fraction bit. -/
def keepNaN (a b : UInt32) (result : Float32) : UInt32 :=
  if isNaN a then a ||| 0x00400000
  else if isNaN b then b ||| 0x00400000
  else if result.isNaN then 0xFFC00000
  else result.toBits

def apply (f : Float32 → Float32 → Float32) (a b : UInt32) : UInt32 :=
  keepNaN a b (f (.ofBits a) (.ofBits b))

def neg (a : UInt32) : UInt32 := a ^^^ 0x80000000

def compare (a b : UInt32) : Value :=
  let x := Float32.ofBits a
  let y := Float32.ofBits b
  ordering (y < x) (x == y)

/-- The number in 64 bits. The fraction of what is no number is kept at its upper end. -/
def toDouble (a : UInt32) : UInt64 :=
  if isNaN a then
    let sign : UInt64 := (a &&& 0x80000000).toUInt64 <<< 32
    let fraction : UInt64 := (a &&& 0x007FFFFF).toUInt64 <<< 29
    sign ||| (0x7FF8000000000000 : UInt64) ||| fraction
  else (Float32.ofBits a).toFloat.toBits

end Single

namespace Double

def isNaN (bits : UInt64) : Bool := 0x7FF0000000000000 < bits &&& 0x7FFFFFFFFFFFFFFF

/-- The first operand that is no number comes out, with its first fraction bit set; if there is none
and the result is no number, it is the negative one with no other fraction bit. -/
def keepNaN (a b : UInt64) (result : Float) : UInt64 :=
  if isNaN a then a ||| 0x0008000000000000
  else if isNaN b then b ||| 0x0008000000000000
  else if result.isNaN then 0xFFF8000000000000
  else result.toBits

def apply (f : Float → Float → Float) (a b : UInt64) : UInt64 :=
  keepNaN a b (f (.ofBits a) (.ofBits b))

def neg (a : UInt64) : UInt64 := a ^^^ 0x8000000000000000

def compare (a b : UInt64) : Value :=
  let x := Float.ofBits a
  let y := Float.ofBits b
  ordering (y < x) (x == y)

end Double

/-! ### Operations on values -/

namespace Value

def onInt (f : Int32 → Value) : Value → Value
  | .int v => f v
  | v => v

def onLong (f : Int64 → Value) : Value → Value
  | .long v => f v
  | v => v

def onFloat (f : UInt32 → Value) : Value → Value
  | .float bits => f bits
  | v => v

def onDouble (f : UInt64 → Value) : Value → Value
  | .double bits => f bits
  | v => v

def onInts (f : Int32 → Int32 → Except RunError Value) : Value → Value → Except RunError Value
  | .int a, .int b => f a b
  | a, _ => .ok a

def onLongs (f : Int64 → Int64 → Except RunError Value) : Value → Value → Except RunError Value
  | .long a, .long b => f a b
  | a, _ => .ok a

def onFloats (f : UInt32 → UInt32 → Value) : Value → Value → Except RunError Value
  | .float a, .float b => .ok (f a b)
  | a, _ => .ok a

def onDoubles (f : UInt64 → UInt64 → Value) : Value → Value → Except RunError Value
  | .double a, .double b => .ok (f a b)
  | a, _ => .ok a

end Value

/-- The fault of a division by zero. -/
def RunError.divisionByZero : RunError := .arithmetic .byZero

namespace Opcode

open Value

/-- Operations on one primitive: the kind of the operand, and the result. -/
def unary? : Opcode → Option (SlotKind × (Value → Value))
  | .ineg => some (.int, onInt fun v => .int (-v))
  | .lneg => some (.long, onLong fun v => .long (-v))
  | .fneg => some (.float, onFloat fun v => .float (Single.neg v))
  | .dneg => some (.double, onDouble fun v => .double (Double.neg v))
  | .i2l => some (.int, onInt fun v => .long v.toInt64)
  | .i2f => some (.int, onInt fun v => .float v.toFloat32.toBits)
  | .i2d => some (.int, onInt fun v => .double v.toFloat.toBits)
  | .l2i => some (.long, onLong fun v => .int v.toInt32)
  | .l2f => some (.long, onLong fun v => .float v.toFloat32.toBits)
  | .l2d => some (.long, onLong fun v => .double v.toFloat.toBits)
  | .f2i => some (.float, onFloat fun v => .int (Float32.ofBits v).toInt32)
  | .f2d => some (.float, onFloat fun v => .double (Single.toDouble v))
  | .d2i => some (.double, onDouble fun v => .int (Float.ofBits v).toInt32)
  | .d2l => some (.double, onDouble fun v => .long (Float.ofBits v).toInt64)
  | _ => none

/-- Operations on two primitives of one kind, and the result. -/
def binary? : Opcode → Option (SlotKind × (Value → Value → Except RunError Value))
  | .iadd => some (.int, onInts fun a b => .ok (.int (a + b)))
  | .isub => some (.int, onInts fun a b => .ok (.int (a - b)))
  | .imul => some (.int, onInts fun a b => .ok (.int (a * b)))
  | .idiv => some (.int, onInts fun a b =>
    if b = 0 then .error .divisionByZero else .ok (.int (a / b)))
  | .irem => some (.int, onInts fun a b =>
    if b = 0 then .error .divisionByZero else .ok (.int (a % b)))
  | .ladd => some (.long, onLongs fun a b => .ok (.long (a + b)))
  | .lsub => some (.long, onLongs fun a b => .ok (.long (a - b)))
  | .lmul => some (.long, onLongs fun a b => .ok (.long (a * b)))
  | .ldiv => some (.long, onLongs fun a b =>
    if b = 0 then .error .divisionByZero else .ok (.long (a / b)))
  | .lrem => some (.long, onLongs fun a b =>
    if b = 0 then .error .divisionByZero else .ok (.long (a % b)))
  | .lcmp => some (.long, onLongs fun a b => .ok (ordering (b < a) (a == b)))
  | .fadd => some (.float, onFloats fun a b => .float (Single.apply (· + ·) a b))
  | .fsub => some (.float, onFloats fun a b => .float (Single.apply (· - ·) a b))
  | .fmul => some (.float, onFloats fun a b => .float (Single.apply (· * ·) a b))
  | .fdiv => some (.float, onFloats fun a b => .float (Single.apply (· / ·) a b))
  | .fcmp => some (.float, onFloats Single.compare)
  | .dadd => some (.double, onDoubles fun a b => .double (Double.apply (· + ·) a b))
  | .dsub => some (.double, onDoubles fun a b => .double (Double.apply (· - ·) a b))
  | .dmul => some (.double, onDoubles fun a b => .double (Double.apply (· * ·) a b))
  | .ddiv => some (.double, onDoubles fun a b => .double (Double.apply (· / ·) a b))
  | .dcmp => some (.double, onDoubles Double.compare)
  | _ => none

/-- Tests of an int against zero. -/
def intTest? : Opcode → Option (Int32 → Bool)
  | .ifeq => some (· == 0)
  | .ifne => some (· != 0)
  | .iflt => some (· < 0)
  | .ifge => some (0 ≤ ·)
  | .ifgt => some (0 < ·)
  | .ifle => some (· ≤ 0)
  | _ => none

/-- Comparisons of two ints. -/
def intComparison? : Opcode → Option (Int32 → Int32 → Bool)
  | .ifIcmpeq => some (· == ·)
  | .ifIcmpne => some (· != ·)
  | .ifIcmplt => some (· < ·)
  | .ifIcmpge => some fun a b => b ≤ a
  | .ifIcmpgt => some fun a b => b < a
  | .ifIcmple => some (· ≤ ·)
  | _ => none

end Opcode

end Resumable
