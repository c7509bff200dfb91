import DiffGraph.Binary64.Basic

/-!
Rounding to the nearest number, ties to the even significand, is computed exactly on the integer
significand and the exponent. Single precision is the same rule on a coarser grid, so a number is
brought to single precision without leaving the double-precision words. Conversions to 64-bit
integers go toward zero and stop at the ends of the range.
-/

set_option autoImplicit false

namespace DiffGraph

/-- A grid of numbers: how many bits a significand has, the exponent of the least unit, and the
exponent from which numbers are infinite. -/
structure FloatGrid where
  precision : Nat
  leastUnit : Int
  overflow : Int

namespace FloatGrid

def double : FloatGrid := ⟨53, -1074, 1024⟩

def single : FloatGrid := ⟨24, -149, 128⟩

/-- The number of bits of a natural number; zero has none. -/
def bitLength (n : Nat) : Nat := if n = 0 then 0 else n.log2 + 1

/-- The quotient rounded to the nearest integer, a tie to the even one. -/
def roundHalfEven (numerator denominator : Nat) : Nat :=
  let quotient := numerator / denominator
  let rest := 2 * (numerator % denominator)
  if denominator < rest ∨ (rest = denominator ∧ quotient % 2 = 1) then quotient + 1 else quotient

/-- The exponent of the unit in which `m * 2 ^ e` is counted on the grid. -/
def unit (grid : FloatGrid) (m : Nat) (e : Int) : Int :=
  Max.max (bitLength m + e - grid.precision) grid.leastUnit

/-- The whole number of units nearest to `m * 2 ^ e`. -/
def round (grid : FloatGrid) (m : Nat) (e : Int) : Nat :=
  let unit := grid.unit m e
  if unit ≤ e then m * Nat.pow 2 (e - unit).toNat else roundHalfEven m (Nat.pow 2 (unit - e).toNat)

end FloatGrid

namespace Binary64

/-- The word of `m * 2 ^ e` where that is a double-precision number. -/
def encode (negative : Bool) (m : Nat) (e : Int) : Binary64 :=
  let unit := FloatGrid.double.unit m e
  withSign negative ((unit + 1074).toNat * Nat.pow 2 52 + FloatGrid.double.round m e)

/-- The number of the grid that is nearest to `m * 2 ^ e`. -/
def nearest (grid : FloatGrid) (negative : Bool) (m : Nat) (e : Int) : Binary64 :=
  let unit := grid.unit m e
  let count := grid.round m e
  if grid.overflow < FloatGrid.bitLength count + unit then infinity negative
  else if count = 0 then withSign negative 0
  else encode negative count unit

/-- What is not a number, with a given fraction; the leading bit of the fraction is always set. -/
def quiet (negative : Bool) (fraction : Nat) : Binary64 :=
  withSign negative (infiniteMagnitude + Nat.pow 2 51 + fraction % Nat.pow 2 51)

/-- The single-precision number nearest to `x`, as a double-precision word. What is not a number
keeps the fraction that a single-precision word has room for. -/
def toSingle (x : Binary64) : Binary64 :=
  if x.isFinite then nearest .single x.isNegative x.significand x.exponent
  else if x.isNaN then quiet x.isNegative (x.magnitude / Nat.pow 2 29 * Nat.pow 2 29)
  else x

/-- The number of a single-precision word. -/
def ofSingleWord (word : UInt32) : Binary64 :=
  let negative := Nat.pow 2 31 ≤ word.toNat
  let magnitude := word.toNat % Nat.pow 2 31
  let field : Nat := magnitude / Nat.pow 2 23
  let fraction := magnitude % Nat.pow 2 23
  if field = 255 then
    if fraction = 0 then infinity negative else quiet negative (fraction * Nat.pow 2 29)
  else if magnitude = 0 then withSign negative 0
  else if field = 0 then encode negative fraction (-149)
  else encode negative (Nat.pow 2 23 + fraction) ((field : Int) - 150)

def ofInt64 (n : Int64) : Binary64 :=
  if n = 0 then zero else nearest .double (n < 0) n.toInt.natAbs 0

/-- An integer rounded once, from all its digits to single precision. -/
def singleOfInt64 (n : Int64) : Binary64 :=
  if n = 0 then zero else nearest .single (n < 0) n.toInt.natAbs 0

/-- The whole part of the magnitude of a finite number. -/
def wholePart (x : Binary64) : Nat :=
  if 0 ≤ x.exponent then x.significand * Nat.pow 2 x.exponent.toNat
  else x.significand / Nat.pow 2 (-x.exponent).toNat

/-- A finite number without a fractional part. -/
def isWhole (x : Binary64) : Bool :=
  x.isFinite && (decide (0 ≤ x.exponent) || x.significand % Nat.pow 2 (-x.exponent).toNat == 0)

/-- Toward zero, and to the nearer end of the range outside it; what is not a number is zero. -/
def toInt64 (x : Binary64) : Int64 :=
  if x.isNaN then 0
  else if x.isInfinite then if x.isNegative then Int64.minValue else Int64.maxValue
  else if x.isNegative then
    if Nat.pow 2 63 ≤ x.wholePart then Int64.minValue else Int64.ofInt (-(x.wholePart : Int))
  else if Nat.pow 2 63 ≤ x.wholePart then Int64.maxValue else Int64.ofNat x.wholePart

/-- The remainder of the division that goes toward zero. It is exact and has the sign of `x`. -/
def rem (x y : Binary64) : Binary64 :=
  if x.isNaN || y.isNaN || x.isInfinite || y.isZero then notANumber
  else if y.isInfinite then x
  else
    let unit := Min.min x.exponent y.exponent
    let rest := (x.significand * Nat.pow 2 (x.exponent - unit).toNat)
      % (y.significand * Nat.pow 2 (y.exponent - unit).toNat)
    if rest = 0 then withSign x.isNegative 0 else nearest .double x.isNegative rest unit

end Binary64

end DiffGraph
