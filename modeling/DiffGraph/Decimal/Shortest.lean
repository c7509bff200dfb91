import DiffGraph.Binary64.Rounding

/-!
The shortest decimal of a number. Every real number in an interval around a double-precision
number rounds to it; the ends belong to the interval when the significand is even. The coarsest
decimal grid with a point in that interval gives the fewest digits, and of the two grid points
around the number the nearer one is taken, the upper one when both are equally near. All
comparisons are between integers.
-/

set_option autoImplicit false

namespace DiffGraph

/-- The number `digits * 10 ^ exponent`. -/
structure Decimal where
  digits : Nat
  exponent : Int
deriving DecidableEq, Repr

/-- A positive number `center * 2 ^ unit` with the ends of the interval that rounds to it, all three
counted in quarters of the last place. -/
structure RoundingInterval where
  lower : Nat
  center : Nat
  upper : Nat
  unit : Int
  closed : Bool

namespace RoundingInterval

/-- Below a power of two the numbers lie twice as dense as above it. -/
def of (x : Binary64) : RoundingInterval :=
  let m := x.significand
  let denser := m == Nat.pow 2 52 && decide (-1074 < x.exponent)
  ⟨4 * m - (if denser then 1 else 2), 4 * m, 4 * m + 2, x.exponent - 2, m % 2 == 0⟩

/-- Factors `a` and `b` with `(n * 2 ^ unit) / 10 ^ k = (n * a) / b` for every `n`. -/
def scale (interval : RoundingInterval) (k : Int) : Nat × Nat :=
  (Nat.pow 2 interval.unit.toNat * Nat.pow 10 (-k).toNat,
    Nat.pow 2 (-interval.unit).toNat * Nat.pow 10 k.toNat)

/-- The point of the grid of multiples of `10 ^ k` that stands for the number, if there is one. -/
def gridPoint? (interval : RoundingInterval) (k : Int) : Option Nat :=
  let (a, b) := interval.scale k
  let inside (point : Nat) : Bool :=
    if interval.closed then
      interval.lower * a ≤ point * b && point * b ≤ interval.upper * a
    else
      interval.lower * a < point * b && point * b < interval.upper * a
  let below := interval.center * a / b
  let rest := interval.center * a % b
  if inside below then
    if inside (below + 1) && b ≤ 2 * rest then some (below + 1) else some below
  else if inside (below + 1) then some (below + 1)
  else none

/-- Tries the grids from `10 ^ k` on downwards. -/
def search (interval : RoundingInterval) : Nat → Int → Decimal
  | 0, k =>
    let (a, b) := interval.scale k
    ⟨interval.center * a / b, k⟩
  | grids + 1, k =>
    match interval.gridPoint? k with
    | some digits => ⟨digits, k⟩
    | none => interval.search grids (k - 1)

end RoundingInterval

/-- The shortest decimal that rounds to the magnitude of `x`. Seventeen digits always suffice, and
the first grid tried is at most three places above the leading digit. -/
def Binary64.shortest (x : Binary64) : Decimal :=
  if x.isZero then ⟨0, 0⟩
  else
    let places := (FloatGrid.bitLength x.significand + x.exponent) * 30103
    (RoundingInterval.of x).search 21 (places.fdiv 100000 + 1)

end DiffGraph
