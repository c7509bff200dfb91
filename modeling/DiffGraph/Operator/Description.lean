import DiffGraph.Operator.Formula
import DiffGraph.Operator.Overload
import DiffGraph.Operator.Template

/-!
Operators described by data: text templates, ways of evaluating constants, formulas and conditions.
A description becomes an overload that can be registered beside the standard operators.
-/

set_option autoImplicit false

namespace DiffGraph

/-- Ways of evaluating an operator on constants. -/
inductive Evaluation where
  /-- The sum of the numbers, starting from zero. -/
  | sum
  | first
  | tuple
  /-- How many operands there are. -/
  | count
  /-- Whether the first operand is not zero. -/
  | nonzero
  | never
  | always (value : Value)

namespace Evaluation

def run (operands : List Value) : Evaluation → Option Value
  | .sum => do
    let numbers ← operands.mapM Value.number?
    return .float (numbers.foldl Binary64.add .zero)
  | .first => operands.head?
  | .tuple => some (.tuple operands)
  | .count => some (.int (Int64.ofNat operands.length))
  | .nonzero => operands.head?.map fun value ↦ .bool !value.isZero
  | .never => none
  | .always value => some value

end Evaluation

structure OperatorDescription where
  name : String
  result : String
  arguments : List String
  /-- A text template for some of the languages. -/
  template : Language → Option String
  evaluation : Option Evaluation
  derivative : Option Formula
  /-- The replacement is used where the condition holds. -/
  replacement : Option (Condition × Formula)
  /-- Pairs of an operand and what flows into it. -/
  gradient : Option (List (Nat × Formula))
  zeroTest : Option Condition
  oneTest : Option Condition

namespace OperatorDescription

def replacementPlan (condition : Condition) (formula : Formula) (operands : List NodeId) :
    Plan (Option NodeId) := do
  if ← Plan.decide operands condition then return some (← formula.plan ⟨operands, none, none⟩)
  return none

def gradientPlan (flows : List (Nat × Formula)) (operands : List NodeId) (incoming : NodeId) :
    Plan (List Contribution) :=
  flows.mapM fun (position, formula) ↦ do
    let target ← Plan.operand operands position
    let amount ← formula.plan ⟨operands, none, some incoming⟩
    return ⟨target, amount⟩

def rules (description : OperatorDescription) : Rules where
  render language := (description.template language).map fillTemplate
  evaluate := description.evaluation.map fun evaluation operands ↦ evaluation.run operands
  derivative := description.derivative.map fun formula operands tangents ↦
    formula.plan ⟨operands, some tangents, none⟩
  replace := description.replacement.map fun (condition, formula) ↦
    replacementPlan condition formula
  gradient := description.gradient.map gradientPlan
  zeroTest := description.zeroTest
  oneTest := description.oneTest

def overload (description : OperatorDescription) : Overload where
  name := description.name
  result := .parse description.result
  patterns := description.arguments.map ArgumentPattern.parse
  rules := description.rules

end OperatorDescription

end DiffGraph
