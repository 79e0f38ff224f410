/-!
# The shortest decimal that reads back

A binary floating-point number is given by its bits. `Binary.Layout.decode` splits them into a sign
and an exact value `m · 2^q`, and `Finite.shortest` finds the decimal `k · 10^e` with the fewest
digits among those that round to the same number, and of these the one nearest to it.

All arithmetic is exact, on natural numbers. The interval of reals that round to `m · 2^q` is
measured in quarters of `2^q`: it reaches half a step up, and half a step down (a quarter of a step
where the step below is only half as wide). Its ends belong to it exactly when `m` is even.

On each grid `10^e` only the two neighbours of the value need to be tried: if any point of the grid
lies in the interval, so does one of them.
-/

namespace Resumable.Decimal

/-- How a binary floating-point format lays out its bits: a sign bit above `exponentBits` bits of
biased exponent above `fractionBits` bits of fraction. -/
structure Layout where
  exponentBits : Nat
  fractionBits : Nat

namespace Layout

/-- The 32-bit format. -/
def single : Layout := ⟨8, 23⟩

/-- The 64-bit format. -/
def double : Layout := ⟨11, 52⟩

end Layout

/-- The positive number `mantissa · 2^exponent`. In front of it the numbers of its format are
`2^exponent` apart, or half of that if `narrowBelow` holds. -/
structure Magnitude where
  mantissa : Nat
  exponent : Int
  narrowBelow : Bool
  deriving DecidableEq, Repr

/-- What the bits of a floating-point number stand for. -/
inductive Reading where
  | nan
  | infinite (negative : Bool)
  | zero (negative : Bool)
  | finite (negative : Bool) (magnitude : Magnitude)
  deriving DecidableEq, Repr

/-- What `bits` stand for in the format `l`. -/
def Layout.decode (l : Layout) (bits : Nat) : Reading :=
  let fraction := bits % Nat.pow 2 l.fractionBits
  let biased := bits / Nat.pow 2 l.fractionBits % Nat.pow 2 l.exponentBits
  let negative := bits / Nat.pow 2 (l.fractionBits + l.exponentBits) % 2 == 1
  let lowest : Int := 2 - Nat.pow 2 (l.exponentBits - 1) - l.fractionBits
  if biased = Nat.pow 2 l.exponentBits - 1 then
    if fraction = 0 then .infinite negative else .nan
  else if biased = 0 then
    if fraction = 0 then .zero negative else .finite negative ⟨fraction, lowest, false⟩
  else
    .finite negative
      ⟨Nat.pow 2 l.fractionBits + fraction, lowest + biased - 1, fraction == 0 && biased != 1⟩

/-- The decimal `digits · 10^exponent`. -/
structure Digits where
  digits : Nat
  exponent : Int
  deriving DecidableEq, Repr

/-- What becomes of a value exactly between its two neighbours on a decimal grid. -/
inductive Tie where
  | up
  | toEven
  deriving DecidableEq, Repr

/-- `b ^ e` for `e ≥ 0`, and 1 below. -/
private def powerUp (b : Nat) (e : Int) : Nat := Nat.pow b e.toNat

namespace Magnitude

/-- `x · 2^(exponent - 2) ≤ k · 10^e`, where `x` counts quarters of a step. -/
private def quartersLe (v : Magnitude) (x k : Nat) (e : Int) : Bool :=
  x * powerUp 2 (v.exponent - 2) * powerUp 10 (-e) ≤
    k * powerUp 10 e * powerUp 2 (2 - v.exponent)

/-- `k · 10^e ≤ x · 2^(exponent - 2)`. -/
private def leQuarters (v : Magnitude) (k : Nat) (e : Int) (x : Nat) : Bool :=
  k * powerUp 10 e * powerUp 2 (2 - v.exponent) ≤
    x * powerUp 2 (v.exponent - 2) * powerUp 10 (-e)

/-- Whether `k · 10^e` rounds to `v`. -/
def admits (v : Magnitude) (k : Nat) (e : Int) : Bool :=
  let low := 4 * v.mantissa - (if v.narrowBelow then 1 else 2)
  let high := 4 * v.mantissa + 2
  if v.mantissa % 2 = 0 then
    v.quartersLe low k e && v.leQuarters k e high
  else
    !v.leQuarters k e low && !v.quartersLe high k e

/-- The greatest `k` with `k · 10^e ≤ v`. -/
def floorOn (v : Magnitude) (e : Int) : Nat :=
  v.mantissa * powerUp 2 v.exponent * powerUp 10 (-e) / (powerUp 2 (-v.exponent) * powerUp 10 e)

/-- Which of the neighbours `k` and `k + 1` on the grid `10^e` is taken when both round to `v`. -/
def nearer (v : Magnitude) (tie : Tie) (k : Nat) (e : Int) : Nat :=
  let twice := 2 * v.mantissa * powerUp 2 v.exponent * powerUp 10 (-e)
  let middle := (2 * k + 1) * powerUp 10 e * powerUp 2 (-v.exponent)
  if twice < middle then k
  else if middle < twice then k + 1
  else match tie with
    | .up => k + 1
    | .toEven => if k % 2 = 0 then k else k + 1

/-- The point of the grid `10^e` that stands for `v`, if one rounds to it. -/
def onGrid? (v : Magnitude) (tie : Tie) (e : Int) : Option Digits :=
  let k := v.floorOn e
  match v.admits k e, v.admits (k + 1) e with
  | true, true => some ⟨v.nearer tie k e, e⟩
  | true, false => some ⟨k, e⟩
  | false, true => some ⟨k + 1, e⟩
  | false, false => none

/-- A decimal exponent `e` with `v < 10^e`, at most two above the least one. -/
def ceilingExponent (v : Magnitude) : Int :=
  let num := v.mantissa * powerUp 2 v.exponent
  let den := powerUp 2 (-v.exponent)
  if den ≤ num then (Nat.toDigits 10 (num / den)).length
  else 1 - (Nat.toDigits 10 (den / num)).length

/-- The shortest decimal that rounds to `v`: grids are tried from the coarsest one on. Eighteen
grids suffice for every format of at most 64 bits, because the last of them is finer than a step. -/
def shortest (v : Magnitude) (tie : Tie) : Digits :=
  let top := v.ceilingExponent
  ((List.range 20).findSome? fun i : Nat => v.onGrid? tie (top - i)).getD ⟨0, 0⟩

end Magnitude

/-! ### Writing the digits -/

/-- How a number is spelled once its digits are known. -/
structure Style where
  /-- The exponents of the leading digit for which the number is written without an exponent. -/
  positional : Int → Bool
  /-- Whether a whole number is written with `.0` behind it. -/
  keepsPoint : Bool
  /-- What stands between `e` and a positive exponent. -/
  exponentPlus : String
  tie : Tie
  nan : String
  /-- The text of an infinite number, by whether it is negative. -/
  infinity : Bool → String

/-- Every number is written out in full, and whole numbers have no point. -/
def Style.plain : Style :=
  { positional := fun _ => true, keepsPoint := false, exponentPlus := "", tie := .up
    nan := "NaN", infinity := fun negative => if negative then "-inf" else "inf" }

/-- Very large and very small numbers are written with an exponent, whole numbers with a point. -/
def Style.debug : Style :=
  { positional := fun x => -5 < x && x < 16, keepsPoint := true, exponentPlus := "", tie := .up
    nan := "NaN", infinity := fun negative => if negative then "-inf" else "inf" }

/-- The style of JSON numbers, where an exponent carries its sign and a number that is not finite
is written as `null`. -/
def Style.json (least greatest : Int) : Style :=
  { positional := fun x => least ≤ x && x ≤ greatest, keepsPoint := true, exponentPlus := "+"
    tie := .toEven, nan := "null", infinity := fun _ => "null" }

private def zeros (n : Nat) : String := "".pushn '0' n

/-- The text of a positive decimal. -/
def Digits.render (d : Digits) (style : Style) : String :=
  let text := toString d.digits
  let leading : Int := text.length + d.exponent - 1
  if style.positional leading then
    if 0 ≤ d.exponent then
      text ++ zeros d.exponent.toNat ++ (if style.keepsPoint then ".0" else "")
    else if 0 ≤ leading then
      let whole := leading.toNat + 1
      String.ofList (text.toList.take whole) ++ "." ++ String.ofList (text.toList.drop whole)
    else
      "0." ++ zeros (-leading - 1).toNat ++ text
  else
    let first := String.ofList (text.toList.take 1)
    let rest := String.ofList (text.toList.drop 1)
    first ++ (if rest.isEmpty then "" else "." ++ rest) ++ "e" ++
      (if 0 ≤ leading then style.exponentPlus else "") ++ toString leading

/-- The text of a number. -/
def Reading.render (r : Reading) (style : Style) : String :=
  let sign (negative : Bool) := if negative then "-" else ""
  match r with
  | .nan => style.nan
  | .infinite negative => style.infinity negative
  | .zero negative => sign negative ++ (if style.keepsPoint then "0.0" else "0")
  | .finite negative v => sign negative ++ (v.shortest style.tie).render style

/-- The text of the 32-bit number with these bits. -/
def renderSingle (style : Style) (bits : UInt32) : String :=
  (Layout.single.decode bits.toNat).render style

/-- The text of the 64-bit number with these bits. -/
def renderDouble (style : Style) (bits : UInt64) : String :=
  (Layout.double.decode bits.toNat).render style

end Resumable.Decimal
