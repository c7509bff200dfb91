import DiffGraph.Operator.Overload

/-!
Building blocks for the rules of operators with one or two operands: the chain rule in both
directions from the partial derivatives, and the identities of arithmetic that replace an
application by something simpler. Zeros and units are recognised among constants only; every
operation that could yield one has already been replaced when it was built.
-/

set_option autoImplicit false

namespace DiffGraph

namespace Rules

def unaryPlan {α : Type} (plan : NodeId → Plan α) : List NodeId → Plan α
  | [a] => plan a
  | operands => .fail (.arity "hook" 1 operands.length)

def binaryPlan {α : Type} (plan : NodeId → NodeId → Plan α) : List NodeId → Plan α
  | [a, b] => plan a b
  | operands => .fail (.arity "hook" 2 operands.length)

def unaryDerivative (rules : Rules) (rule : (a da : NodeId) → Plan NodeId) : Rules :=
  { rules with derivative := some fun operands tangents ↦
      unaryPlan (fun a ↦ unaryPlan (fun da ↦ rule a da) tangents) operands }

def binaryDerivative (rules : Rules) (rule : (a b da db : NodeId) → Plan NodeId) : Rules :=
  { rules with derivative := some fun operands tangents ↦
      binaryPlan (fun a b ↦ binaryPlan (fun da db ↦ rule a b da db) tangents) operands }

def unaryGradient (rules : Rules) (rule : (a g : NodeId) → Plan (List Contribution)) : Rules :=
  { rules with gradient := some fun operands g ↦ unaryPlan (fun a ↦ rule a g) operands }

def binaryGradient (rules : Rules) (rule : (a b g : NodeId) → Plan (List Contribution)) : Rules :=
  { rules with gradient := some fun operands g ↦ binaryPlan (fun a b ↦ rule a b g) operands }

def unaryReplace (rules : Rules) (rule : NodeId → Plan (Option NodeId)) : Rules :=
  { rules with replace := some (unaryPlan rule) }

def binaryReplace (rules : Rules) (rule : NodeId → NodeId → Plan (Option NodeId)) : Rules :=
  { rules with replace := some (binaryPlan rule) }

/-- The chain rule for one operand, from the derivative of the function there. Where the operand
does not vary, the function's derivative is not built. -/
def unaryCalculus (rules : Rules) (slope : NodeId → Plan NodeId) : Rules :=
  (rules.unaryDerivative fun a da ↦ do
    if ← Plan.holdsZero da then return da
    Plan.mul (← slope a) da).unaryGradient fun a g ↦ do
      return [⟨a, ← Plan.mul g (← slope a)⟩]

/-- The chain rule for two operands, from both partial derivatives. -/
def binaryCalculus (rules : Rules) (partials : NodeId → NodeId → Plan (NodeId × NodeId)) : Rules :=
  (rules.binaryDerivative fun a b da db ↦ do
    let (pa, pb) ← partials a b
    let ta ← Plan.mul pa da
    let tb ← Plan.mul pb db
    Plan.add ta tb).binaryGradient fun a b g ↦ do
      let (pa, pb) ← partials a b
      let ga ← Plan.mul g pa
      let gb ← Plan.mul g pb
      return [⟨a, ga⟩, ⟨b, gb⟩]

/-- Operators that jump or count: their derivative is zero and nothing flows back. -/
def withoutCalculus (rules : Rules) : Rules :=
  { rules with
    derivative := some fun operands _ ↦ do Plan.zeroLike (← Plan.operand operands 0)
    gradient := some fun _ _ ↦ .done [] }

/-- `x + 0` and `0 + x`. -/
def replaceAdd (a b : NodeId) : Plan (Option NodeId) := do
  if ← Plan.isZeroConstant b then return some a
  if ← Plan.isZeroConstant a then return some b
  return none

/-- `x - 0`, `0 - x` and `x - x`. -/
def replaceSub (a b : NodeId) : Plan (Option NodeId) := do
  if ← Plan.isZeroConstant b then return some a
  if ← Plan.isZeroConstant a then return some (← Plan.neg b)
  if a = b then return some (← Plan.zeroLike a)
  return none

/-- `-(-x)`. -/
def replaceNeg (a : NodeId) : Plan (Option NodeId) := do
  match (← Plan.node a).kind with
  | .expression (.registered "-" _) [inner] => return some inner
  | _ => return none

/-- `x * 0`, `0 * x`, `x * 1` and `1 * x`. -/
def replaceMul (a b : NodeId) : Plan (Option NodeId) := do
  if ← Plan.isZeroConstant a then return some (← Plan.zeroLike a)
  if ← Plan.isZeroConstant b then return some (← Plan.zeroLike a)
  if ← Plan.isOneConstant b then return some a
  if ← Plan.isOneConstant a then return some b
  return none

/-- `x / 1` and `0 / x`. -/
def replaceDiv (a b : NodeId) : Plan (Option NodeId) := do
  if ← Plan.isOneConstant b then return some a
  if ← Plan.isZeroConstant a then return some a
  return none

def bothZero : Condition := .both (.zeroConstant 0) (.zeroConstant 1)

def eitherZero : Condition := .either (.zeroConstant 0) (.zeroConstant 1)

def bothOne : Condition := .both (.oneConstant 0) (.oneConstant 1)

/-- The same text in every language. -/
def renderAll (rules : Rules) (text : List String → String) : Rules :=
  { rules with render := fun _ ↦ some text }

def unaryText (text : String → String) : List String → String
  | a :: _ => text a
  | [] => text ""

def binaryText (text : String → String → String) : List String → String
  | a :: b :: _ => text a b
  | [a] => text a ""
  | [] => text "" ""

/-- An operator written between its operands. -/
def between (symbol : String) : Rules :=
  ({} : Rules).renderAll (binaryText fun a b ↦ s!"({a} {symbol} {b})")

/-- A minus sign in front of the operand. -/
def minusSign : Rules := ({} : Rules).renderAll (unaryText fun a ↦ s!"(-{a})")

/-- A text for languages with declared types and another one for the scripting language. -/
def renderSplit (rules : Rules) (declared script : List String → String) : Rules :=
  { rules with render := fun
      | .c | .cpp => some declared
      | .js => some script }

end Rules

end DiffGraph
