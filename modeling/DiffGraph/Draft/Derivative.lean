import DiffGraph.Draft.Construction

/-!
Derivatives of expressions with respect to an address. All nodes below the expression are
differentiated in the order of the graph, so the derivatives of a node's operands are known when its
own turn comes. Known derivatives are kept, and shared parts are differentiated once.
-/

set_option autoImplicit false

namespace DiffGraph

namespace Build

def derivative? (address node : NodeId) : Build (Option NodeId) :=
  return (← get).derivatives[(address, node)]?

def recordDerivative (address node derivative : NodeId) : Build Unit :=
  modify fun draft ↦
    { draft with derivatives := draft.derivatives.insert (address, node) derivative }

/-- The known derivative of an operand. -/
def tangent (address operand : NodeId) : Build NodeId := do
  match ← derivative? address operand with
  | some derivative => return derivative
  | none => throw (.notDifferentiable (← describe operand))

/-- One for the address itself, zero for anything else. -/
def unitIf (isAddress : Bool) (type : String) : Build NodeId :=
  if isAddress then one type else zero type

def typesOf (ids : List NodeId) : Build (List String) := ids.mapM typeOf

/-- The derivative of an expression from those of its operands. -/
def differentiateExpression (address : NodeId) (type : String) (operator : Operator)
    (operands : List NodeId) : Build NodeId := do
  match operator with
  | .registered name overload =>
    match ((← get).operators.overload? name overload).bind fun o ↦ o.rules.derivative with
    | none => throw (.noDerivativeRule name (← typesOf operands))
    | some rule =>
      let tangents ← operands.mapM (tangent address)
      carryOut (rule operands tangents)
  | .member _ | .index _ | .construct =>
    let tangents ← operands.mapM (tangent address)
    rebuild operator type tangents

/-- The derivative of a node from those of its operands. -/
def differentiateNode (address id : NodeId) : Build NodeId := do
  let node ← node id
  match node.kind with
  | .constant _ => zero node.type
  | .argument .. => unitIf (id = address) node.type
  | .read source => unitIf (source = address) node.type
  | .write .. => throw (.notDifferentiable (← describe id))
  | .expression operator operands =>
    if node.isAddress then unitIf (id = address) node.type
    else differentiateExpression address node.type operator operands

/-- The derivative of a node, known or new. -/
def differentiateOnce (address id : NodeId) : Build NodeId := do
  match ← derivative? address id with
  | some derivative => return derivative
  | none =>
    let derivative ← differentiateNode address id
    recordDerivative address id derivative
    return derivative

/-- The derivative of a node with respect to an address. A read stands for the address it reads. -/
def differentiate (address id : NodeId) : Build NodeId := do
  checkOwned address
  checkOwned id
  let address :=
    match (← node address).kind with
    | .read source => source
    | _ => address
  if !(← node address).isAddress then
    throw (.notAddress "differentiate with respect to" (← describe address))
  match ← derivative? address id with
  | some derivative => return derivative
  | none =>
    let below := (← get).graph.closure Node.isComputed id
    below.forM fun part ↦ do
      let _ ← differentiateOnce address part
    differentiateOnce address id

end Build

end DiffGraph
