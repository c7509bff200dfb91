import DiffGraph.Operator.Condition

/-!
Formulas: rules of operators written down as data. A formula is built from the operands of an
application, their derivatives or the gradient that flows in, numbers, and applications of other
operators. It stands for the plan that builds its parts from left to right.
-/

set_option autoImplicit false

namespace DiffGraph

inductive Formula where
  | operand (position : Nat)
  /-- The derivative of an operand. -/
  | tangent (position : Nat)
  /-- The gradient that flows into the application. -/
  | incoming
  | float (x : Binary64)
  | int (n : Int64)
  | zero (type : String)
  | one (type : String)
  | member (base : Formula) (field : String)
  | index (base : Formula) (position : Nat)
  | apply (operator : String) (arguments : List Formula)

/-- What a formula may refer to. -/
structure FormulaScope where
  operands : List NodeId
  tangents : Option (List NodeId)
  incoming : Option NodeId

namespace Formula

/-- A number is no node. -/
def asNode : Operand → Plan NodeId
  | .node id => .done id
  | .float _ | .int _ => .fail (.undeclared "hook")

mutual

def operandPlan (scope : FormulaScope) : Formula → Plan Operand
  | .operand i => do return .node (← Plan.operand scope.operands i)
  | .tangent i => do
    let _ ← Plan.operand scope.operands i
    match scope.tangents with
    | some tangents => return .node (← Plan.operand tangents i)
    | none => .fail (.undeclared "hook")
  | .incoming =>
    match scope.incoming with
    | some g => .done (.node g)
    | none => .fail (.undeclared "hook")
  | .float x => .done (.float x)
  | .int n => .done (.int n)
  | .zero type => do return .node (← Plan.request (.constant type .zero))
  | .one type => do return .node (← Plan.request (.one type))
  | .member base field => do
    let base ← asNode (← operandPlan scope base)
    return .node (← Plan.request (.member base field))
  | .index base position => do
    let base ← asNode (← operandPlan scope base)
    return .node (← Plan.request (.index base position))
  | .apply operator arguments => do
    let operands ← operandPlans scope arguments
    return .node (← Plan.apply operator operands)

def operandPlans (scope : FormulaScope) : List Formula → Plan (List Operand)
  | [] => .done []
  | formula :: rest => do
    let first ← operandPlan scope formula
    let others ← operandPlans scope rest
    return first :: others

end

/-- The plan of a formula that has to yield a node. -/
def plan (scope : FormulaScope) (formula : Formula) : Plan NodeId := do
  asNode (← formula.operandPlan scope)

end Formula

end DiffGraph
