import DiffGraph.Graph.Text
import DiffGraph.Operator.Registry
import DiffGraph.Options
import DiffGraph.Types.Conversion
import DiffGraph.Types.Table

/-!
A draft is a function under construction: its arguments, the graph of its expressions and the writes
it makes. Every operation either yields a result or fails with an error, and either way leaves a
draft behind: nodes that were built before a failure stay in the graph.
-/

set_option autoImplicit false

namespace DiffGraph

structure Draft where
  name : String
  options : Options
  operators : Registry
  types : TypeTable
  graph : Graph
  /-- The arguments in the order of their declaration. -/
  arguments : List (String × NodeId)
  /-- The writes in the order they were first made. -/
  writes : List NodeId
  /-- How many elements of an address were written one after another. -/
  elementsWritten : Std.HashMap NodeId Nat
  /-- Statements put in front of the body, by language. -/
  preamble : List (Language × String)
  /-- Statements put behind the body, by language. -/
  postamble : List (Language × String)
  /-- Derivatives that are already known, by variable and node. -/
  derivatives : Std.HashMap (NodeId × NodeId) NodeId

/-- An operation on a draft. -/
abbrev Build := ExceptT Error (StateM Draft)

/-- The numbers that an operation can have no effect with. -/
inductive Neutral where
  | zero
  | one
deriving DecidableEq

namespace Neutral

def isValue : Neutral → Value → Bool
  | .zero => Value.isZero
  | .one => Value.isOne

def test : Neutral → Rules → Option Condition
  | .zero => Rules.zeroTest
  | .one => Rules.oneTest

end Neutral

namespace Draft

/-- A draft without arguments. The number tells its nodes from those of other drafts. -/
def new (owner : Nat) (name : String) (operators : Registry) (types : TypeTable)
    (options : Options) : Draft where
  name := name
  options := options
  operators := operators
  types := types
  graph := .empty owner
  arguments := []
  writes := []
  elementsWritten := {}
  preamble := []
  postamble := []
  derivatives := {}

/-- The node with this name, if the draft issued it. -/
def node (draft : Draft) (id : NodeId) : Except Error Node :=
  match draft.graph.node? id with
  | some node => .ok node
  | none => .error (.foreignAccess id.index draft.name)

def describe (draft : Draft) (id : NodeId) : String := draft.graph.describe id

/-- The text of a node. -/
def text (draft : Draft) (id : NodeId) : Except Error String := do
  let _ ← draft.node id
  return draft.graph.text id

/-- The argument that an address is, or is a part of. -/
def rootArgument (draft : Draft) (id : NodeId) : Except Error (Option NodeId) := do
  let _ ← draft.node id
  return draft.graph.root? id

def lookupType (draft : Draft) (name : String) : Except Error TypeDefinition :=
  match draft.types.get? name with
  | some type => .ok type
  | none => .error (.typing (.unknown name))

def argument (draft : Draft) (name : String) : Except Error NodeId :=
  match draft.arguments.lookup name with
  | some id => .ok id
  | none => .error (.undeclared name)

def direction (draft : Draft) (id : NodeId) : Direction :=
  (((draft.graph.node? id).bind Node.argument?).map Prod.snd).getD .input

/-- Whether a node is a zero or a one: a constant that is, or an operator whose own test says so. -/
def isNeutral (draft : Draft) (element : Neutral) (id : NodeId) : Bool :=
  match h : draft.graph.node? id with
  | none => false
  | some node =>
    match node.kind with
    | .constant value => element.isValue value
    | .expression (.registered name overload) _ =>
      match (draft.operators.overload? name overload).bind fun o ↦ element.test o.rules with
      | none => false
      | some condition =>
        condition.holds (node.operands.attach.map fun ⟨operand, member⟩ ↦
          have : operand.index < id.index := Graph.operand_index_lt h member
          { id := operand
            constant := fun _ ↦ .ok ((draft.graph.node? operand).bind Node.constant?)
            isZero := fun _ ↦ .ok (draft.isNeutral .zero operand)
            isOne := fun _ ↦ .ok (draft.isNeutral .one operand) })
    | _ => false
termination_by id.index

def isZero (draft : Draft) (id : NodeId) : Except Error Bool := do
  let _ ← draft.node id
  return draft.isNeutral .zero id

def isOne (draft : Draft) (id : NodeId) : Except Error Bool := do
  let _ ← draft.node id
  return draft.isNeutral .one id

/-- An operator's own test for a zero or a one, on given operands. A test that fails does not hold,
but nodes of other drafts are reported. -/
def evaluateTest (draft : Draft) (condition : Condition) (operands : List NodeId) :
    Except Error Bool :=
  let views : List OperandView := operands.map fun id ↦
    { id
      constant := fun _ ↦ do return (← draft.node id).constant?
      isZero := fun _ ↦ draft.isZero id
      isOne := fun _ ↦ draft.isOne id }
  match condition.eval views with
  | .ok answer => .ok answer
  | .error (.foreignAccess index name) => .error (.foreignAccess index name)
  | .error _ => .ok false

/-- The draft in one line. -/
def summary (draft : Draft) : String :=
  let name := Text.quoted draft.name
  let arguments := ", ".intercalate (draft.arguments.map fun entry ↦ Text.quoted entry.1)
  s!"Context \x7b name: {name}, args: [{arguments}], nodes: {draft.graph.size}, " ++
    s!"writes: {draft.writes.length}, .. \x7d"

end Draft

namespace Build

/-- Asks the draft a question that may fail. -/
def query {α : Type} (question : Draft → Except Error α) : Build α := do
  match question (← get) with
  | .ok answer => return answer
  | .error error => throw error

/-- Runs an operation and reports its failure as a result. -/
def observe {α : Type} (operation : Build α) : Build (Except Error α) :=
  ExceptT.mk do
    let outcome ← operation.run
    return .ok outcome

def node (id : NodeId) : Build Node := query fun draft ↦ draft.node id

def typeOf (id : NodeId) : Build String := do return (← node id).type

def lookupType (name : String) : Build TypeDefinition := query fun draft ↦ draft.lookupType name

def isZero (id : NodeId) : Build Bool := query fun draft ↦ draft.isZero id

def isOne (id : NodeId) : Build Bool := query fun draft ↦ draft.isOne id

def describe (id : NodeId) : Build String := return (← get).describe id

/-- The draft issued the node. -/
def checkOwned (id : NodeId) : Build Unit :=
  query fun draft ↦ if draft.graph.Owns id then .ok () else .error (.foreignNode id.index)

/-- The node with this type and kind. A node whose operands belong to other drafts is refused. -/
def intern (type : String) (kind : NodeKind) (isAddress : Bool) : Build NodeId :=
  ExceptT.mk fun draft ↦
    if owned : ∀ operand ∈ kind.operands, draft.graph.Owns operand then
      let (id, graph) := draft.graph.intern type kind isAddress owned
      (.ok id, { draft with graph })
    else
      let foreign := kind.operands.find? fun operand ↦ !decide (draft.graph.Owns operand)
      (.error (.foreignNode (foreign.elim 0 NodeId.index)), draft)

/-- A constant in the one spelling that its type stores. -/
def constant (type : String) (value : Value) : Build NodeId := do
  let definition ← lookupType type
  intern type (.constant (definition.normalize value)) false

def zero (type : String) : Build NodeId := constant type .zero

/-- The unit of a numeric type. -/
def one (type : String) : Build NodeId := do
  match (← lookupType type).scalar? with
  | some .double | some .single => constant type (.float .one)
  | some .integer => constant type (.int 1)
  | some .boolean | none => throw (.noUnit type)

/-- The value at an address as it was when the function was called. -/
def read (address : NodeId) : Build NodeId := do
  checkOwned address
  let node ← node address
  if node.isAddress then intern node.type (.read address) false
  else throw (.notAddress "read" (← describe address))

/-- A node as a value: addresses are read. -/
def valueOf (id : NodeId) : Build NodeId := do
  if (← node id).isAddress then read id else return id

end Build

end DiffGraph
