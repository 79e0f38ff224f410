/-!
# JSON numbers

`NumberText` is a number as it is written. A whole number in the range of 64-bit integers is taken
exactly. Any other number is taken through its leading digits, as many as fit 64 bits, and a power
of ten, in two rounded steps of 64-bit arithmetic; a number beyond the largest finite one is refused.
-/

namespace Resumable.Json

/-- A number as it is written. -/
structure NumberText where
  negative : Bool
  /-- The digits in front of the point. -/
  whole : List Nat
  /-- The digits behind the point. -/
  fraction : List Nat
  exponent : Int
  /-- Neither a point nor an exponent is written. -/
  isWhole : Bool
  deriving DecidableEq, Repr

namespace NumberText

/-- The number that digits spell. -/
def ofDigits (digits : List Nat) : Nat := digits.foldl (fun n d => 10 * n + d) 0

/-- The integer that the text spells, if it is one of at most 64 bits. Minus zero is none. -/
def toInt? (n : NumberText) : Option Int :=
  let magnitude := ofDigits n.whole
  if !n.isWhole then none
  else if n.negative then
    if 0 < magnitude ∧ magnitude ≤ Nat.pow 2 63 then some (-magnitude) else none
  else
    if magnitude < Nat.pow 2 64 then some magnitude else none

/-- Leading digits and the power of ten that belongs to them. -/
structure Parts where
  significand : Nat
  exponent : Int
  /-- A digit has already been left out. -/
  full : Bool

/-- Takes a digit in front of the point. -/
def Parts.pushWhole (p : Parts) (d : Nat) : Parts :=
  if p.full || Nat.pow 2 64 ≤ 10 * p.significand + d then
    { p with exponent := p.exponent + 1, full := true }
  else { p with significand := 10 * p.significand + d }

/-- Takes a digit behind the point. -/
def Parts.pushFraction (p : Parts) (d : Nat) : Parts :=
  if p.full || Nat.pow 2 64 ≤ 10 * p.significand + d then { p with full := true }
  else { p with significand := 10 * p.significand + d, exponent := p.exponent - 1 }

/-- The leading digits of the number. -/
def parts (n : NumberText) : Parts :=
  let whole := n.whole.foldl Parts.pushWhole ⟨0, 0, false⟩
  let all := n.fraction.foldl Parts.pushFraction { whole with full := false }
  { all with exponent := all.exponent + n.exponent }

/-- The power of ten, rounded to 64 bits. -/
def powerOfTen (e : Nat) : Float := Float.ofScientific 1 false e

/-- `x · 10^exponent`, none beyond the finite numbers. Exponents below the table of powers are
approached in steps, at most one more than `steps`; after three of them only zero is left. -/
def scale (x : Float) (exponent : Int) : (steps : Nat) → Option Float
  | 0 => some 0
  | steps + 1 =>
    if exponent.natAbs ≤ 308 then
      if 0 ≤ exponent then
        let y := x * powerOfTen exponent.natAbs
        if y.isInf then none else some y
      else some (x / powerOfTen exponent.natAbs)
    else if x == 0 then some x
    else if 0 ≤ exponent then none
    else scale (x / powerOfTen 308) (exponent + 308) steps

/-- The number in 64-bit arithmetic, none if it is out of range. -/
def toFloat? (n : NumberText) : Option Float :=
  let p := n.parts
  let x := scale p.significand.toUInt64.toFloat p.exponent 6
  if n.negative then x.map (-·) else x

end NumberText

end Resumable.Json
