import DiffGraph.Error
import DiffGraph.Graph.Node

/-!
Plans of construction. The rules of an operator say which nodes to build for a derivative, a
gradient or a replacement. A rule does not build them itself: it answers with a plan, which asks for
nodes one after another and goes on with what it is given. The function under construction carries a
plan out, and decides on its own how deep replacements may nest while doing so.
-/

set_option autoImplicit false

namespace DiffGraph

/-- What an operator is applied to: a node, or a number that becomes a constant. -/
inductive Operand where
  | node (id : NodeId)
  | float (x : Binary64)
  | int (n : Int64)
deriving DecidableEq

/-- One step of construction. Each yields a node or fails. -/
inductive Request where
  | apply (operator : String) (operands : List Operand)
  | member (base : NodeId) (field : String)
  | index (base : NodeId) (position : Nat)
  | construct (type : String) (arguments : List NodeId)
  | read (address : NodeId)
  | constant (type : String) (value : Value)
  | one (type : String)
  | declare (name type : String) (direction : Direction)
  | write (address : NodeId) (value : Operand)
  | writeNext (address : NodeId) (value : Operand)

inductive Plan (α : Type) : Type where
  | done (result : α)
  | fail (error : Error)
  /-- Has a node built and goes on, also after a failure. -/
  | build (request : Request) (next : Except Error NodeId → Plan α)
  | inspect (id : NodeId) (next : Node → Plan α)
  | isZero (id : NodeId) (next : Bool → Plan α)
  | isOne (id : NodeId) (next : Bool → Plan α)

namespace Plan

def bind {α β : Type} : Plan α → (α → Plan β) → Plan β
  | .done result, rest => rest result
  | .fail error, _ => .fail error
  | .build request next, rest => .build request fun answer ↦ (next answer).bind rest
  | .inspect id next, rest => .inspect id fun node ↦ (next node).bind rest
  | .isZero id next, rest => .isZero id fun answer ↦ (next answer).bind rest
  | .isOne id next, rest => .isOne id fun answer ↦ (next answer).bind rest

instance : Monad Plan where
  pure := .done
  bind := bind

/-- Has a node built and stops at a failure. -/
def request (request : Request) : Plan NodeId :=
  .build request fun answer ↦
    match answer with
    | .ok id => .done id
    | .error error => .fail error

def node (id : NodeId) : Plan Node := .inspect id .done

def typeOf (id : NodeId) : Plan String := .inspect id fun node ↦ .done node.type

/-- Whether the node is a constant that is zero. -/
def isZeroConstant (id : NodeId) : Plan Bool :=
  .inspect id fun node ↦ .done (node.constant?.any Value.isZero)

/-- Whether the node is a constant that is one. -/
def isOneConstant (id : NodeId) : Plan Bool :=
  .inspect id fun node ↦ .done (node.constant?.any Value.isOne)

def holdsZero (id : NodeId) : Plan Bool := .isZero id .done

def holdsOne (id : NodeId) : Plan Bool := .isOne id .done

def apply (operator : String) (operands : List Operand) : Plan NodeId :=
  request (.apply operator operands)

def add (a b : NodeId) : Plan NodeId := apply "+" [.node a, .node b]

def sub (a b : NodeId) : Plan NodeId := apply "-" [.node a, .node b]

def mul (a b : NodeId) : Plan NodeId := apply "*" [.node a, .node b]

def div (a b : NodeId) : Plan NodeId := apply "/" [.node a, .node b]

def neg (a : NodeId) : Plan NodeId := apply "-" [.node a]

/-- Applies an operator with one operand. -/
def call (operator : String) (a : NodeId) : Plan NodeId := apply operator [.node a]

/-- Combines a number with a node. -/
def withNumber (operator : String) (x : Binary64) (a : NodeId) : Plan NodeId :=
  apply operator [.float x, .node a]

/-- The zero of a node's type. -/
def zeroLike (id : NodeId) : Plan NodeId := do
  request (.constant (← typeOf id) .zero)

/-- The unit of a node's type. -/
def oneLike (id : NodeId) : Plan NodeId := do
  request (.one (← typeOf id))

end Plan

end DiffGraph
