/-!
Hexadecimal numbers of a fixed width, the way words are written and read. Small letters are
written; either case is read.
-/

set_option autoImplicit false

namespace DiffGraph

namespace Text

def hexDigit (n : Nat) : Char := ("0123456789abcdef".toList[n]?).getD '0'

def hexDigit? (c : Char) : Option Nat :=
  if c.isDigit then some (c.toNat - '0'.toNat)
  else if 'a' ≤ c ∧ c ≤ 'f' then some (c.toNat - 'a'.toNat + 10)
  else if 'A' ≤ c ∧ c ≤ 'F' then some (c.toNat - 'A'.toNat + 10)
  else none

/-- The lowest digits of a number, as many as asked for. -/
def hexadecimal (width n : Nat) : List Char :=
  (List.range width).map fun i ↦ hexDigit (n / Nat.pow 16 (width - 1 - i) % 16)

/-- Reads exactly as many digits as asked for. -/
def hexadecimal? (width : Nat) (text : List Char) : Option Nat :=
  if text.length = width then
    text.foldlM (fun value c ↦ (hexDigit? c).map (16 * value + ·)) 0
  else none

end Text

end DiffGraph
