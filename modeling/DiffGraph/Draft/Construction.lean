import DiffGraph.Draft.Memory

/-!
Construction of expressions. An application is first evaluated, if its operands are constants; then
replaced, if its operator or the shape of its operand calls for something simpler; and only then
becomes a node. A replacement may ask for further expressions, which are built the same way with one
replacement less to go, and fail when none is left.
-/

set_option autoImplicit false

namespace DiffGraph

namespace Plan

/-- Carries a plan out, with a way to meet its requests. -/
def run {α : Type} (perform : Request → Build NodeId) : Plan α → Build α
  | .done result => return result
  | .fail error => throw error
  | .build request next => do
    let answer ← Build.observe (perform request)
    (next answer).run perform
  | .inspect id next => do
    let node ← Build.node id
    (next node).run perform
  | .isZero id next => do
    let answer ← Build.isZero id
    (next answer).run perform
  | .isOne id next => do
    let answer ← Build.isOne id
    (next answer).run perform

end Plan

namespace Build

/-- The type of the first node among the operands that is a floating-point number. All nodes are
checked. -/
def floatTypeAmong : List Operand → Build (Option String)
  | [] => return none
  | .node id :: rest => do
    checkOwned id
    let type ← typeOf id
    let isFloat := ((← get).types.get? type).any TypeDefinition.isFloat
    let other ← floatTypeAmong rest
    return if isFloat then some type else other
  | _ :: rest => floatTypeAmong rest

/-- Operands as nodes. A number takes the floating-point type among the operands, if there is one;
an integer is always an integer. -/
def coerce (operands : List Operand) : Build (List NodeId) := do
  let floatType ← floatTypeAmong operands
  operands.mapM fun
    | .node id => return id
    | .float x => constant (floatType.getD "double") (.float x)
    | .int n => constant "int" (.int n)

def constants? (operands : List NodeId) : Build (Option (List Value)) := do
  let graph := (← get).graph
  return operands.mapM fun id ↦ (graph.node? id).bind Node.constant?

/-- The constant that an application to constants amounts to, if it does. -/
def evaluate? (operator : Operator) (type : String) (operands : List NodeId) :
    Build (Option NodeId) := do
  match operator with
  | .registered name overload =>
    match ((← get).operators.overload? name overload).bind fun o ↦ o.rules.evaluate with
    | none => return none
    | some rule =>
      match (← constants? operands).bind rule with
      | none => return none
      | some value => return some (← constant type value)
  | .construct =>
    match ← constants? operands with
    | none => return none
    | some values =>
      let value :=
        match (← lookupType type).shape with
        | .scalar kind => values.getLast?.bind kind.convert?
        | .abstract => none
        | .record .. | .template .. => some (.tuple values)
      match value with
      | none => return none
      | some value => return some (← constant type value)
  | .member _ | .index _ => return none

/-- A slot of a constant, of a constructed aggregate, or of a value that was read: the last one is
read from the slot's own address. -/
def project (perform : Request → Build NodeId) (onAddress : NodeId → Request) (type : String)
    (base : NodeId) (slot : Nat) : Build (Option NodeId) := do
  match (← node base).kind with
  | .constant value =>
    match value.element? slot with
    | some item => return some (← constant type item)
    | none => return none
  | .expression .construct parts => return parts[slot]?
  | .read address => do
    let part ← perform (onAddress address)
    return some (← read part)
  | _ => return none

/-- What an application is replaced by, if it is. -/
def replace? (perform : Request → Build NodeId) (operator : Operator) (type : String)
    (operands : List NodeId) : Build (Option NodeId) := do
  match operator, operands with
  | .registered name overload, operands =>
    match ((← get).operators.overload? name overload).bind fun o ↦ o.rules.replace with
    | some rule => (rule operands).run perform
    | none => return none
  | .member field, base :: _ =>
    match ((← get).types.get? (← typeOf base)).bind fun definition ↦ definition.field? field with
    | some (slot, _) => project perform (fun address ↦ .member address field) type base slot
    | none => return none
  | .index position, base :: _ =>
    project perform (fun address ↦ .index address position) type base position
  | .construct, _ | .member _, [] | .index _, [] => return none

/-- The node of an application: a constant, a replacement, or an expression of its own. -/
def finish (replace : Operator → String → List NodeId → Build (Option NodeId))
    (operator : Operator) (type : String) (operands : List NodeId) (isAddress : Bool) :
    Build NodeId := do
  match ← evaluate? operator type operands with
  | some id => return id
  | none =>
    match ← replace operator type operands with
    | some id => return id
    | none => intern type (.expression operator operands) isAddress

section

variable (finish : Operator → String → List NodeId → Bool → Build NodeId)

def memberWith (base : NodeId) (field : String) : Build NodeId := do
  checkOwned base
  let node ← node base
  match (← get).types.member node.type field with
  | .error error => throw (.typing error)
  | .ok ((_, type), types) =>
    modify fun draft ↦ { draft with types }
    finish (.member field) type [base] node.isAddress

def indexWith (base : NodeId) (position : Nat) : Build NodeId := do
  checkOwned base
  let node ← node base
  match (← get).types.element node.type position with
  | .error error => throw (.typing error)
  | .ok type => finish (.index position) type [base] node.isAddress

/-- One argument per slot; an abstract type and a template without a length take any number. -/
def constructWith (type : String) (arguments : List NodeId) : Build NodeId := do
  arguments.forM checkOwned
  let definition ← lookupType type
  let expected := definition.arity?.getD arguments.length
  if arguments.length ≠ expected then
    throw (.constructorArity type expected arguments.length)
  let values ← arguments.mapM valueOf
  finish .construct type values false

/-- The only operand of a projection. -/
def single (operator : String) : List NodeId → Build NodeId
  | [base] => return base
  | operands => throw (.arity operator 1 operands.length)

/-- The type that an overload names for its result. -/
def resultType (operator : String) (types : List String) : ResultType → Build String
  | .named type => do return (← lookupType type).name
  | .sameAs position =>
    match types[position]? with
    | some type => return type
    | none => throw (.noOperand operator position types.length)

/-- A point and a name select a member, a number in brackets an element. Any other name is looked up
among the operators, and then among the types. -/
def applyWith (operator : String) (operands : List Operand) : Build NodeId := do
  let operands ← coerce operands
  match projection? operator with
  | some (.inl field) => memberWith finish (← single operator operands) field
  | some (.inr position) => indexWith finish (← single operator operands) position
  | none =>
    let types ← operands.mapM typeOf
    match (← get).operators.resolve operator types with
    | some (position, overload) =>
      let type ← resultType operator types overload.result
      let values ← operands.mapM valueOf
      finish (.registered operator position) type values false
    | none =>
      if ((← get).types.get? operator).isSome then constructWith finish operator operands
      else throw (.noOverload operator types)
where
  projection? (name : String) : Option (String ⊕ Nat) :=
    match name.toList with
    | '.' :: field => some (.inl (String.ofList field))
    | '[' :: rest =>
      match rest.getLast? with
      | some ']' => (Text.natural? rest.dropLast).map .inr
      | _ => none
    | _ => none

/-- Writes to the first element of the address that was not yet written this way. -/
def writeNextWith (address : NodeId) (value : Operand) : Build NodeId := do
  let position := (← get).elementsWritten.getD address 0
  let element ← indexWith finish address position
  let id ← write element value
  modify fun draft ↦
    { draft with elementsWritten := draft.elementsWritten.insert address (position + 1) }
  return id

def performWith : Request → Build NodeId
  | .apply operator operands => applyWith finish operator operands
  | .member base field => memberWith finish base field
  | .index base position => indexWith finish base position
  | .construct type arguments => constructWith finish type arguments
  | .read address => read address
  | .constant type value => constant type value
  | .one type => one type
  | .declare name type direction => declare name type direction
  | .write address value => write address value
  | .writeNext address value => writeNextWith finish address value

end

/-- Meets a request with a number of nested replacements still allowed. -/
def perform : Nat → Request → Build NodeId
  | 0 => performWith (finish fun operator _ _ ↦ do
      throw (.replacementLimit operator.name (← get).options.replacementLimit))
  | remaining + 1 => performWith (finish (replace? (perform remaining)))

/-- Meets a request from outside, with all nested replacements allowed. -/
def request (request : Request) : Build NodeId := do
  perform (← get).options.replacementLimit request

/-- Carries out a plan of an operator's rules. -/
def carryOut {α : Type} (plan : Plan α) : Build α := plan.run request

def apply (operator : String) (operands : List Operand) : Build NodeId :=
  request (.apply operator operands)

def member (base : NodeId) (field : String) : Build NodeId := request (.member base field)

def index (base : NodeId) (position : Nat) : Build NodeId := request (.index base position)

def construct (type : String) (arguments : List NodeId) : Build NodeId :=
  request (.construct type arguments)

def writeNext (address : NodeId) (value : Operand) : Build NodeId :=
  request (.writeNext address value)

/-- Applies an operator to new operands. -/
def rebuild (operator : Operator) (type : String) (operands : List NodeId) : Build NodeId :=
  match operator, operands with
  | .registered name _, operands => apply name (operands.map .node)
  | .member field, base :: _ => member base field
  | .index position, base :: _ => index base position
  | .construct, operands => construct type operands
  | .member _, [] | .index _, [] => throw (.arity operator.name 1 0)

end Build

end DiffGraph
