import DiffGraph.Operator.Standard.Calculus

/-!
Integer arithmetic. Constants wrap around at 64 bits, and integers carry no derivatives.
-/

set_option autoImplicit false

namespace DiffGraph

namespace IntegerArithmetic

def evaluateBinary (f : Int64 → Int64 → Int64) : List Value → Option Value
  | [a, b] => do return .int (f (← a.integer?) (← b.integer?))
  | _ => none

def evaluateNegation : List Value → Option Value
  | a :: _ => do return .int (-(← a.integer?))
  | [] => none

def binary (name : String) (rules : Rules) : Overload :=
  ⟨name, .named "int", [.exact "int", .exact "int"], rules.withoutCalculus⟩

def addition : Overload :=
  binary "+" <|
    ({ Rules.between "+" with
        evaluate := some (evaluateBinary (· + ·))
        zeroTest := some Rules.bothZero } : Rules).binaryReplace Rules.replaceAdd

def subtraction : Overload :=
  binary "-" <|
    ({ Rules.between "-" with
        evaluate := some (evaluateBinary (· - ·)) } : Rules).binaryReplace Rules.replaceSub

def negation : Overload :=
  ⟨"-", .named "int", [.exact "int"],
    (({ Rules.minusSign with evaluate := some evaluateNegation } : Rules).unaryReplace
      Rules.replaceNeg).withoutCalculus⟩

def multiplication : Overload :=
  binary "*" <|
    ({ Rules.between "*" with
        evaluate := some (evaluateBinary (· * ·))
        zeroTest := some Rules.eitherZero
        oneTest := some Rules.bothOne } : Rules).binaryReplace Rules.replaceMul

def operators : List Overload := [addition, subtraction, negation, multiplication]

end IntegerArithmetic

end DiffGraph
