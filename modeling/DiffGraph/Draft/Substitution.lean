import DiffGraph.Draft.Construction

/-!
Substitution and evaluation. Substituting rebuilds an expression with every read of a bound address
replaced; reads of parts of a bound address take the part of its value. Evaluation substitutes
constants for arguments and relies on construction to evaluate what has become constant.
-/

set_option autoImplicit false

namespace DiffGraph

abbrev Bindings := Std.HashMap NodeId NodeId

namespace Build

/-- Takes the parts that lead from an address to one inside it, outermost first. -/
def descend (value : NodeId) (path : List NodeId) : Build NodeId :=
  path.foldlM (fun value part ↦ do
    match (← node part).kind with
    | .expression operator _ => rebuild operator (← typeOf part) [value]
    | _ => return value) value

/-- The value of an address under bindings: that of the nearest bound address it is part of. -/
def boundValue? (bindings : Bindings) (address : NodeId) : Build (Option NodeId) := do
  let lineage := (← get).graph.lineage address
  match lineage.findIdx? fun part ↦ bindings.contains part with
  | none => return none
  | some depth =>
    match lineage[depth]?.bind fun part ↦ bindings[part]? with
    | none => return none
    | some value => return some (← descend value (lineage.take depth).reverse)

/-- What a node becomes, given what its operands have become. -/
def substituteNode (bindings rebuilt : Bindings) (id : NodeId) : Build NodeId := do
  let node ← node id
  match node.kind with
  | .constant _ | .argument .. => return id
  | .read address => return (← boundValue? bindings address).getD id
  | .write .. => throw (.notConstant (← describe id))
  | .expression operator operands =>
    if node.isAddress then return id
    else
      let replaced := operands.map fun operand ↦ rebuilt.getD operand operand
      if replaced = operands then return id else rebuild operator node.type replaced

def substitute (bindings : Bindings) (id : NodeId) : Build NodeId := do
  checkOwned id
  let below := (← get).graph.closure Node.isComputed id
  let rebuilt ← below.foldlM (fun rebuilt part ↦ do
    return rebuilt.insert part (← substituteNode bindings rebuilt part)) (∅ : Bindings)
  return rebuilt.getD id id

/-- Binds arguments to constants of their types. Of two bindings of a name the later one counts. -/
def bind (environment : List (String × Value)) : Build Bindings :=
  environment.foldlM (fun bindings (name, value) ↦ do
    let address ← argument name
    return bindings.insert address (← constant (← typeOf address) value)) (∅ : Bindings)

/-- The constant that a node becomes under bindings. -/
def constantUnder (bindings : Bindings) (id : NodeId) : Build Value := do
  let result ← substitute bindings id
  match (← node result).constant? with
  | some value => return value
  | none => throw (.notConstant (← describe result))

/-- The value of a node for given arguments. -/
def evaluate (environment : List (String × Value)) (id : NodeId) : Build Value := do
  constantUnder (← bind environment) id

/-- Puts a value under a name; a name that is there keeps its place. -/
def putResult (results : List (String × Value)) (name : String) (value : Value) :
    List (String × Value) :=
  if results.any fun entry ↦ entry.1 == name then
    results.map fun entry ↦ if entry.1 == name then (name, value) else entry
  else results ++ [(name, value)]

/-- The values written for given arguments, by the text of their addresses. The last write to an
address counts. -/
def evaluateWrites (environment : List (String × Value)) : Build (List (String × Value)) := do
  let bindings ← bind environment
  (← get).writes.foldlM (fun results id ↦ do
    match (← node id).kind with
    | .write address value =>
      let result ← constantUnder bindings value
      return putResult results ((← get).graph.text address) result
    | _ => return results) []

end Build

end DiffGraph
