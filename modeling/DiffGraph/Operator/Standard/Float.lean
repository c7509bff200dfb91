import DiffGraph.Operator.Standard.Calculus

/-!
Operators on floating-point numbers, once for each precision: arithmetic, elementary functions and
rectifiers. Constants are computed in double precision and rounded at the end.
-/

set_option autoImplicit false

namespace DiffGraph

/-- A floating-point type with the endings of its functions and literals in source text. -/
structure Precision where
  type : String
  functionSuffix : String
  literalSuffix : String
  round : Binary64 → Binary64

namespace Precision

def double : Precision := ⟨"double", "", "", id⟩

def single : Precision := ⟨"float", "f", "f", Binary64.toSingle⟩

def evaluateUnary (precision : Precision) (f : Binary64 → Binary64) : List Value → Option Value
  | a :: _ => do return .float (precision.round (f (← a.number?)))
  | [] => none

def evaluateBinary (precision : Precision) (f : Binary64 → Binary64 → Binary64) :
    List Value → Option Value
  | [a, b] => do return .float (precision.round (f (← a.number?) (← b.number?)))
  | _ => none

def unary (precision : Precision) (name : String) (rules : Rules) : Overload :=
  ⟨name, .named precision.type, [.exact precision.type], rules⟩

def binary (precision : Precision) (name : String) (rules : Rules) : Overload :=
  ⟨name, .named precision.type, [.exact precision.type, .exact precision.type], rules⟩

def addition (precision : Precision) : Overload :=
  precision.binary "+" <|
    ({ Rules.between "+" with
        evaluate := some (precision.evaluateBinary .add)
        zeroTest := some Rules.bothZero } : Rules)
      |>.binaryReplace Rules.replaceAdd
      |>.binaryDerivative (fun _ _ da db ↦ Plan.add da db)
      |>.binaryGradient fun a b g ↦ return [⟨a, g⟩, ⟨b, g⟩]

def subtraction (precision : Precision) : Overload :=
  precision.binary "-" <|
    ({ Rules.between "-" with evaluate := some (precision.evaluateBinary .sub) } : Rules)
      |>.binaryReplace Rules.replaceSub
      |>.binaryDerivative (fun _ _ da db ↦ Plan.sub da db)
      |>.binaryGradient fun a b g ↦ do return [⟨a, g⟩, ⟨b, ← Plan.neg g⟩]

def negation (precision : Precision) : Overload :=
  precision.unary "-" <|
    ({ Rules.minusSign with
        evaluate := some (precision.evaluateUnary .neg)
        zeroTest := some (.zeroConstant 0) } : Rules)
      |>.unaryReplace Rules.replaceNeg
      |>.unaryDerivative (fun _ da ↦ Plan.neg da)
      |>.unaryGradient fun a g ↦ do return [⟨a, ← Plan.neg g⟩]

/-- `d(a * b) = da * b + a * db`. -/
def multiplication (precision : Precision) : Overload :=
  precision.binary "*" <|
    ({ Rules.between "*" with
        evaluate := some (precision.evaluateBinary .mul)
        zeroTest := some Rules.eitherZero
        oneTest := some Rules.bothOne } : Rules)
      |>.binaryReplace Rules.replaceMul
      |>.binaryDerivative (fun a b da db ↦ do
        let left ← Plan.mul da b
        let right ← Plan.mul a db
        Plan.add left right)
      |>.binaryGradient fun a b g ↦ do
        let ga ← Plan.mul g b
        let gb ← Plan.mul g a
        return [⟨a, ga⟩, ⟨b, gb⟩]

/-- `d(a / b) = da / b - a * db / (b * b)`. -/
def division (precision : Precision) : Overload :=
  precision.binary "/" <|
    ({ Rules.between "/" with
        evaluate := some (precision.evaluateBinary .div)
        zeroTest := some (.zeroConstant 0) } : Rules)
      |>.binaryReplace Rules.replaceDiv
      |>.binaryDerivative (fun a b da db ↦ do
        let left ← Plan.div da b
        let numerator ← Plan.mul a db
        let square ← Plan.mul b b
        let right ← Plan.div numerator square
        Plan.sub left right)
      |>.binaryGradient fun a b g ↦ do
        let ga ← Plan.div g b
        let numerator ← Plan.mul g a
        let square ← Plan.mul b b
        let quotient ← Plan.div numerator square
        let gb ← Plan.neg quotient
        return [⟨a, ga⟩, ⟨b, gb⟩]

/-- A call of the language's mathematical library. -/
def libraryCall (precision : Precision) (name script : String) : Rules :=
  { render := fun
      | .c => some fun operands ↦
        name ++ precision.functionSuffix ++ "(" ++ ", ".intercalate operands ++ ")"
      | .cpp => some fun operands ↦ "std::" ++ name ++ "(" ++ ", ".intercalate operands ++ ")"
      | .js => some fun operands ↦ "Math." ++ script ++ "(" ++ ", ".intercalate operands ++ ")" }

/-- A function of the mathematical library with its derivative. -/
def elementary (precision : Precision) (name : String) (f : Binary64 → Binary64)
    (slope : NodeId → Plan NodeId) : Overload :=
  precision.unary name <|
    Rules.unaryCalculus
      { precision.libraryCall name name with evaluate := some (precision.evaluateUnary f) } slope

def sine (precision : Precision) : Overload :=
  precision.elementary "sin" .sin fun a ↦ Plan.call "cos" a

def cosine (precision : Precision) : Overload :=
  precision.elementary "cos" .cos fun a ↦ do Plan.neg (← Plan.call "sin" a)

def tangent (precision : Precision) : Overload :=
  precision.elementary "tan" .tan fun a ↦ do
    let c ← Plan.call "cos" a
    let square ← Plan.call "sqr" c
    Plan.withNumber "/" .one square

def exponential (precision : Precision) : Overload :=
  precision.elementary "exp" .exp fun a ↦ Plan.call "exp" a

def logarithm (precision : Precision) : Overload :=
  precision.elementary "log" .log fun a ↦ Plan.withNumber "/" .one a

def squareRoot (precision : Precision) : Overload :=
  precision.elementary "sqrt" .sqrt fun a ↦ do
    Plan.withNumber "/" .half (← Plan.call "sqrt" a)

def hyperbolicTangent (precision : Precision) : Overload :=
  precision.elementary "tanh" .tanh fun a ↦ do
    let t ← Plan.call "tanh" a
    let square ← Plan.call "sqr" t
    Plan.withNumber "-" .one square

def square (precision : Precision) : Overload :=
  precision.unary "sqr" <|
    Rules.unaryCalculus
      { ({} : Rules).renderAll (Rules.unaryText fun a ↦ s!"({a} * {a})") with
        evaluate := some (precision.evaluateUnary fun x ↦ x.mul x) }
      fun a ↦ Plan.withNumber "*" .two a

def cube (precision : Precision) : Overload :=
  precision.unary "cube" <|
    Rules.unaryCalculus
      { ({} : Rules).renderAll (Rules.unaryText fun a ↦ s!"({a} * {a} * {a})") with
        evaluate := some (precision.evaluateUnary fun x ↦ (x.mul x).mul x) }
      fun a ↦ do Plan.withNumber "*" .three (← Plan.call "sqr" a)

def zeroText (precision : Precision) : String := "0.0" ++ precision.literalSuffix

def oneText (precision : Precision) : String := "1.0" ++ precision.literalSuffix

/-- Keeps positive numbers and cuts the others off at zero. -/
def rectifier (precision : Precision) : Overload :=
  let zero := precision.zeroText
  precision.unary "relu" <|
    Rules.unaryCalculus
      { ({} : Rules).renderSplit (Rules.unaryText fun a ↦ s!"({a} > {zero} ? {a} : {zero})")
          (Rules.unaryText fun a ↦ s!"Math.max({a}, 0)") with
        evaluate := some (precision.evaluateUnary fun x ↦ if x.isPositive then x else .zero) }
      fun a ↦ Plan.call "step" a

/-- Keeps positive numbers and scales the others by the second operand. -/
def leakyRectifier (precision : Precision) : Overload :=
  let zero := precision.zeroText
  precision.binary "leaky_relu" <|
    Rules.binaryCalculus
      { ({} : Rules).renderSplit
          (Rules.binaryText fun a b ↦ s!"({a} > {zero} ? {a} : {b} * {a})")
          (Rules.binaryText fun a b ↦ s!"({a} > 0 ? {a} : {b} * {a})") with
        evaluate := some (precision.evaluateBinary fun x slope ↦
          if x.isPositive then x else slope.mul x) }
      fun x slope ↦ do
        let on ← Plan.call "step" x
        let off ← Plan.withNumber "-" .one on
        let leak ← Plan.mul off slope
        let px ← Plan.add on leak
        let pslope ← Plan.mul off x
        return (px, pslope)

/-- One for positive numbers and zero for the others. -/
def unitStep (precision : Precision) : Overload :=
  let zero := precision.zeroText
  let one := precision.oneText
  precision.unary "step" <|
    Rules.withoutCalculus
      { ({} : Rules).renderSplit (Rules.unaryText fun a ↦ s!"({a} > {zero} ? {one} : {zero})")
          (Rules.unaryText fun a ↦ s!"({a} > 0 ? 1 : 0)") with
        evaluate := some (precision.evaluateUnary fun x ↦ if x.isPositive then .one else .zero) }

/-- Brings an angle above minus half a turn into one turn around zero. -/
def normalAngle (precision : Precision) : Overload :=
  precision.unary "normangle" <|
    Rules.unaryCalculus
      { render := fun
          | .c => some (Rules.unaryText fun a ↦
            s!"(fmod{precision.functionSuffix}({a} + M_PI, 2.0 * M_PI) - M_PI)")
          | .cpp => some (Rules.unaryText fun a ↦
            s!"(std::fmod({a} + M_PI, 2.0 * M_PI) - M_PI)")
          | .js => some (Rules.unaryText fun a ↦
            s!"(({a} + Math.PI) % (2 * Math.PI) - Math.PI)")
        evaluate := some (precision.evaluateUnary fun x ↦ ((x.add .pi).rem .tau).sub .pi) }
      Plan.oneLike

/-- A function of two operands of the mathematical library, with its partial derivatives. -/
def elementaryBinary (precision : Precision) (name library script : String)
    (f : Binary64 → Binary64 → Binary64)
    (partials : NodeId → NodeId → Plan (NodeId × NodeId)) : Overload :=
  precision.binary name <|
    Rules.binaryCalculus
      { precision.libraryCall library script with
        evaluate := some (precision.evaluateBinary f) } partials

def angleOf (precision : Precision) : Overload :=
  precision.elementaryBinary "atan2" "atan2" "atan2" .atan2 fun y x ↦ do
    let xx ← Plan.mul x x
    let yy ← Plan.mul y y
    let r ← Plan.add xx yy
    let py ← Plan.div x r
    let quotient ← Plan.div y r
    let px ← Plan.neg quotient
    return (py, px)

def minimum (precision : Precision) : Overload :=
  precision.elementaryBinary "min" "fmin" "min" .min fun a b ↦ do
    let difference ← Plan.sub b a
    let pa ← Plan.call "step" difference
    let pb ← Plan.withNumber "-" .one pa
    return (pa, pb)

def maximum (precision : Precision) : Overload :=
  precision.elementaryBinary "max" "fmax" "max" .max fun a b ↦ do
    let difference ← Plan.sub a b
    let pa ← Plan.call "step" difference
    let pb ← Plan.withNumber "-" .one pa
    return (pa, pb)

/-- All operators of a precision. -/
def operators (precision : Precision) : List Overload :=
  [precision.addition, precision.subtraction, precision.negation, precision.multiplication,
    precision.division, precision.sine, precision.cosine, precision.tangent,
    precision.exponential, precision.logarithm, precision.squareRoot,
    precision.hyperbolicTangent, precision.square, precision.cube, precision.rectifier,
    precision.leakyRectifier, precision.unitStep, precision.normalAngle, precision.angleOf,
    precision.minimum, precision.maximum]

end Precision

end DiffGraph
