/-!
Decimal whole numbers. Natural numbers stand in operator names and result types: digits, optionally
after a plus sign, for numbers that fit into 64 bits. Integers may also have a minus sign.
-/

set_option autoImplicit false

namespace DiffGraph

namespace Text

def digitsValue (digits : List Char) : Nat :=
  digits.foldl (fun value digit ↦ 10 * value + (digit.toNat - '0'.toNat)) 0

def natural? (text : List Char) : Option Nat :=
  let digits :=
    match text with
    | '+' :: rest => rest
    | _ => text
  if digits.isEmpty || !digits.all Char.isDigit then none
  else
    let value := digitsValue digits
    if value < Nat.pow 2 64 then some value else none

/-- An integer that fits into a word of so many bits with a sign. -/
def integer? (bits : Nat) (text : List Char) : Option Int :=
  let (isNegative, digits) :=
    match text with
    | '-' :: rest => (true, rest)
    | '+' :: rest => (false, rest)
    | _ => (false, text)
  if digits.isEmpty || !digits.all Char.isDigit then none
  else
    let magnitude : Int := digitsValue digits
    let value := if isNegative then -magnitude else magnitude
    let bound : Int := Nat.pow 2 (bits - 1)
    if -bound ≤ value ∧ value < bound then some value else none

end Text

end DiffGraph
