import DiffGraph.Decimal.Shortest

/-!
How a shortest decimal is laid out. Two layouts are in use: source text writes very large and very
small numbers with a power of ten and shows that a number is not an integer; diagnostics write all
numbers out, place by place.
-/

set_option autoImplicit false

namespace DiffGraph

/-- The powers of ten of the leading digit from `least` to `greatest` are written out, the others
with an exponent. -/
structure DecimalLayout where
  least : Option Int
  greatest : Option Int
  keepsPoint : Bool

namespace DecimalLayout

/-- Numbers of source text: written out from `0.0001` to below `10 ^ 16`, always with a point or an
exponent. -/
def literal : DecimalLayout := ⟨some (-4), some 15, true⟩

/-- Numbers of diagnostics: always written out, whole numbers without a point. -/
def plain : DecimalLayout := ⟨none, none, false⟩

def zeros (n : Nat) : String := String.ofList (List.replicate n '0')

/-- The digits with a point in front of the last `places` of them. -/
def pointed (digits : String) (places : Nat) : String :=
  let padded := zeros (places + 1 - digits.length) ++ digits
  let cut := padded.length - places
  String.ofList (padded.toList.take cut) ++ "." ++ String.ofList (padded.toList.drop cut)

def positional (layout : DecimalLayout) (d : Decimal) : String :=
  let digits := toString d.digits
  if d.exponent < 0 then pointed digits (-d.exponent).toNat
  else digits ++ zeros d.exponent.toNat ++ (if layout.keepsPoint then ".0" else "")

/-- One digit before the point, the power of ten after the mark. -/
def scientific (d : Decimal) : String :=
  let digits := toString d.digits
  let mantissa := if digits.length ≤ 1 then digits else pointed digits (digits.length - 1)
  mantissa ++ "e" ++ toString (d.exponent + digits.length - 1)

def isPositional (layout : DecimalLayout) (d : Decimal) : Bool :=
  let leading := d.exponent + (toString d.digits).length - 1
  d.digits == 0 || (layout.least.all (· ≤ leading) && layout.greatest.all (leading ≤ ·))

def render (layout : DecimalLayout) (x : Binary64) : String :=
  if x.isNaN then "NaN"
  else
    let sign := if x.isNegative then "-" else ""
    if x.isInfinite then sign ++ "inf"
    else
      let d := x.shortest
      sign ++ (if layout.isPositional d then layout.positional d else scientific d)

end DecimalLayout

end DiffGraph
