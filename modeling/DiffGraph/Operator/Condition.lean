import DiffGraph.Operator.Plan

/-!
Conditions on the operands of an operator. Operands are named by their position; a condition that
names an operand which is not there fails.
-/

set_option autoImplicit false

namespace DiffGraph

inductive Condition where
  | always
  /-- The operand is known to be zero, as a constant or by its operator's own test. -/
  | isZero (operand : Nat)
  | isOne (operand : Nat)
  /-- The operand is a constant, and zero. -/
  | zeroConstant (operand : Nat)
  | oneConstant (operand : Nat)
  | same (first second : Nat)
  | count (number : Nat)
  | both (first second : Condition)
  | either (first second : Condition)
deriving DecidableEq

/-- What a condition can learn of an operand. All but its name is only found out when asked. -/
structure OperandView where
  id : NodeId
  constant : Unit → Except Error (Option Value)
  isZero : Unit → Except Error Bool
  isOne : Unit → Except Error Bool

/-- The operand at a position. -/
def operandAt {α : Type} (operands : List α) (position : Nat) : Except Error α :=
  match operands[position]? with
  | some operand => .ok operand
  | none => .error (.noOperand "hook" position operands.length)

namespace Condition

def eval (operands : List OperandView) : Condition → Except Error Bool
  | .always => .ok true
  | .isZero i => do (← operandAt operands i).isZero ()
  | .isOne i => do (← operandAt operands i).isOne ()
  | .zeroConstant i => do return (← (← operandAt operands i).constant ()).any Value.isZero
  | .oneConstant i => do return (← (← operandAt operands i).constant ()).any Value.isOne
  | .same i j => do return (← operandAt operands i).id == (← operandAt operands j).id
  | .count n => .ok (operands.length == n)
  | .both p q => do if ← p.eval operands then q.eval operands else return false
  | .either p q => do if ← p.eval operands then return true else q.eval operands

/-- A failing condition does not hold. -/
def holds (operands : List OperandView) (condition : Condition) : Bool :=
  match condition.eval operands with
  | .ok answer => answer
  | .error _ => false

end Condition

namespace Plan

def operand (operands : List NodeId) (position : Nat) : Plan NodeId :=
  match operandAt operands position with
  | .ok id => .done id
  | .error error => .fail error

/-- Finds out whether a condition holds in the course of a plan. -/
def decide (operands : List NodeId) : Condition → Plan Bool
  | .always => .done true
  | .isZero i => do holdsZero (← operand operands i)
  | .isOne i => do holdsOne (← operand operands i)
  | .zeroConstant i => do isZeroConstant (← operand operands i)
  | .oneConstant i => do isOneConstant (← operand operands i)
  | .same i j => do return (← operand operands i) == (← operand operands j)
  | .count n => .done (operands.length == n)
  | .both p q => do if ← decide operands p then decide operands q else return false
  | .either p q => do if ← decide operands p then return true else decide operands q

end Plan

end DiffGraph
