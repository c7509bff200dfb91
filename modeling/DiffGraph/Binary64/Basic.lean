/-!
Double-precision numbers are kept as their 64-bit words. Two numbers are the same when their words
are, so a table can be indexed by numbers: the two zeros are told apart, and every pattern of a
quantity that is not a number counts as itself. The four arithmetic operations and the elementary
functions act on the number that a word stands for; every test on a number is a test on its word.
-/

set_option autoImplicit false

namespace DiffGraph

/-- A double-precision number, given by its word. -/
structure Binary64 where
  bits : UInt64
deriving DecidableEq, Hashable, Inhabited, Repr

namespace Binary64

def ofFloat (x : Float) : Binary64 := ⟨x.toBits⟩

def toFloat (x : Binary64) : Float := Float.ofBits x.bits

def zero : Binary64 := ⟨0⟩

def one : Binary64 := ⟨0x3ff0000000000000⟩

def two : Binary64 := ⟨0x4000000000000000⟩

def three : Binary64 := ⟨0x4008000000000000⟩

def half : Binary64 := ⟨0x3fe0000000000000⟩

def notANumber : Binary64 := ⟨0x7ff8000000000000⟩

/-- Half a turn, rounded to the nearest number. -/
def pi : Binary64 := ⟨0x400921fb54442d18⟩

/-- A full turn, twice `pi`. -/
def tau : Binary64 := ⟨0x401921fb54442d18⟩

/-- The word without its sign. Magnitudes are ordered as the numbers they stand for. -/
def magnitude (x : Binary64) : Nat := x.bits.toNat % 0x8000000000000000

def isNegative (x : Binary64) : Bool := 0x8000000000000000 ≤ x.bits.toNat

/-- The magnitude of an infinity; anything above it is not a number. -/
def infiniteMagnitude : Nat := 0x7ff0000000000000

def isFinite (x : Binary64) : Bool := x.magnitude < infiniteMagnitude

def isInfinite (x : Binary64) : Bool := x.magnitude == infiniteMagnitude

def isNaN (x : Binary64) : Bool := infiniteMagnitude < x.magnitude

/-- Both zeros are zero. -/
def isZero (x : Binary64) : Bool := x.magnitude == 0

def isOne (x : Binary64) : Bool := x == one

/-- Greater than zero, which a quantity that is not a number never is. -/
def isPositive (x : Binary64) : Bool :=
  !x.isNegative && !x.isZero && !x.isNaN

def withSign (negative : Bool) (magnitude : Nat) : Binary64 :=
  ⟨UInt64.ofNat (if negative then 0x8000000000000000 + magnitude else magnitude)⟩

def infinity (negative : Bool) : Binary64 := withSign negative infiniteMagnitude

/-- A finite number is `significand * 2 ^ exponent`, up to its sign. -/
def significand (x : Binary64) : Nat :=
  if x.magnitude < Nat.pow 2 52 then x.magnitude else Nat.pow 2 52 + x.magnitude % Nat.pow 2 52

def exponent (x : Binary64) : Int := (max (x.magnitude / Nat.pow 2 52) 1 : Nat) - 1075

def add (x y : Binary64) : Binary64 := ofFloat (x.toFloat + y.toFloat)

def sub (x y : Binary64) : Binary64 := ofFloat (x.toFloat - y.toFloat)

def mul (x y : Binary64) : Binary64 := ofFloat (x.toFloat * y.toFloat)

def div (x y : Binary64) : Binary64 := ofFloat (x.toFloat / y.toFloat)

/-- Turns the sign over, whatever the word stands for. -/
def neg (x : Binary64) : Binary64 := withSign (!x.isNegative) x.magnitude

def sin (x : Binary64) : Binary64 := ofFloat x.toFloat.sin

def cos (x : Binary64) : Binary64 := ofFloat x.toFloat.cos

def tan (x : Binary64) : Binary64 := ofFloat x.toFloat.tan

def exp (x : Binary64) : Binary64 := ofFloat x.toFloat.exp

def log (x : Binary64) : Binary64 := ofFloat x.toFloat.log

def sqrt (x : Binary64) : Binary64 := ofFloat x.toFloat.sqrt

def tanh (x : Binary64) : Binary64 := ofFloat x.toFloat.tanh

def atan2 (y x : Binary64) : Binary64 := ofFloat (Float.atan2 y.toFloat x.toFloat)

def lt (x y : Binary64) : Bool := x.toFloat < y.toFloat

/-- The smaller of two numbers; a quantity that is not a number gives way to the other one. -/
def min (x y : Binary64) : Binary64 :=
  if x.isNaN then y else if y.isNaN then x else if y.lt x then y else x

/-- The larger of two numbers; a quantity that is not a number gives way to the other one. -/
def max (x y : Binary64) : Binary64 :=
  if x.isNaN then y else if y.isNaN then x else if x.lt y then y else x

end Binary64

end DiffGraph
