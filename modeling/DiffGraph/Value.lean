import DiffGraph.Decimal.Layout

/-!
Constants. A constant is a number, a truth value, an aggregate of constants, or the zero of a type
that is not spelled out. Equal quantities may be written in different ways: a zero has two signs,
and an aggregate of zeros says no more than the zero of its type. `Value.canonical` picks one
spelling at every depth.
-/

set_option autoImplicit false

namespace DiffGraph

inductive Value where
  | float (x : Binary64)
  | int (n : Int64)
  | bool (b : Bool)
  | zero
  | tuple (items : List Value)
deriving Inhabited, Hashable

namespace Value

mutual

def decideEq : (v w : Value) → Decidable (v = w)
  | .float x, .float y =>
    if h : x = y then .isTrue (by rw [h]) else .isFalse (by intro e; cases e; exact h rfl)
  | .int m, .int n =>
    if h : m = n then .isTrue (by rw [h]) else .isFalse (by intro e; cases e; exact h rfl)
  | .bool a, .bool b =>
    if h : a = b then .isTrue (by rw [h]) else .isFalse (by intro e; cases e; exact h rfl)
  | .zero, .zero => .isTrue rfl
  | .tuple vs, .tuple ws =>
    match decideEqAll vs ws with
    | .isTrue h => .isTrue (by rw [h])
    | .isFalse h => .isFalse (by intro e; cases e; exact h rfl)
  | .float _, .int _ | .float _, .bool _ | .float _, .zero | .float _, .tuple _
  | .int _, .float _ | .int _, .bool _ | .int _, .zero | .int _, .tuple _
  | .bool _, .float _ | .bool _, .int _ | .bool _, .zero | .bool _, .tuple _
  | .zero, .float _ | .zero, .int _ | .zero, .bool _ | .zero, .tuple _
  | .tuple _, .float _ | .tuple _, .int _ | .tuple _, .bool _ | .tuple _, .zero =>
    .isFalse (by intro e; cases e)

def decideEqAll : (vs ws : List Value) → Decidable (vs = ws)
  | [], [] => .isTrue rfl
  | v :: vs, w :: ws =>
    match decideEq v w, decideEqAll vs ws with
    | .isTrue h, .isTrue hs => .isTrue (by rw [h, hs])
    | .isFalse h, _ => .isFalse (by intro e; cases e; exact h rfl)
    | _, .isFalse hs => .isFalse (by intro e; cases e; exact hs rfl)
  | [], _ :: _ | _ :: _, [] => .isFalse (by intro e; cases e)

end

instance : DecidableEq Value := decideEq

mutual

/-- A truth value is never a zero; an aggregate is one when all its items are. -/
def isZero : Value → Bool
  | .float x => x.isZero
  | .int n => n == 0
  | .bool _ => false
  | .zero => true
  | .tuple items => allZero items

def allZero : List Value → Bool
  | [] => true
  | v :: vs => v.isZero && allZero vs

end

def isOne : Value → Bool
  | .float x => x.isOne
  | .int n => n == 1
  | _ => false

mutual

/-- Zeros lose their sign, and a nonempty aggregate of zeros becomes the zero of its type. -/
def canonical : Value → Value
  | .float x => if x.isZero then .float .zero else .float x
  | .tuple items =>
    let items := canonicalAll items
    if !items.isEmpty && allZero items then .zero else .tuple items
  | v => v

def canonicalAll : List Value → List Value
  | [] => []
  | v :: vs => v.canonical :: canonicalAll vs

end

/-- A number as a double-precision number. -/
def number? : Value → Option Binary64
  | .float x => some x
  | .int n => some (.ofInt64 n)
  | _ => none

def integer? : Value → Option Int64
  | .int n => some n
  | _ => none

/-- An item of an aggregate. The zero of a type has zeros for items. -/
def element? (i : Nat) : Value → Option Value
  | .zero => some .zero
  | .tuple items => items[i]?
  | _ => none

mutual

/-- The spelling of a value in error messages. -/
def describe : Value → String
  | .float x => "Float(" ++ DecimalLayout.literal.render x ++ ")"
  | .int n => "Int(" ++ toString n.toInt ++ ")"
  | .bool b => "Bool(" ++ toString b ++ ")"
  | .zero => "Zero"
  | .tuple items => "Tuple([" ++ ", ".intercalate (describeAll items) ++ "])"

def describeAll : List Value → List String
  | [] => []
  | v :: vs => v.describe :: describeAll vs

end

mutual

/-- The text of a value inside an expression: whole numbers below `10 ^ 15` have no point. -/
def plainText : Value → String
  | .float x =>
    if x.isWhole && x.wholePart < Nat.pow 10 15 then toString x.toInt64.toInt
    else DecimalLayout.plain.render x
  | .int n => toString n.toInt
  | .bool b => toString b
  | .zero => "0"
  | .tuple items => "(" ++ ", ".intercalate (plainTextAll items) ++ ")"

def plainTextAll : List Value → List String
  | [] => []
  | v :: vs => v.plainText :: plainTextAll vs

end

end Value

end DiffGraph
