import DiffGraph.Value

/-!
Nodes of an expression graph. A node is a constant, an argument, a read of an address, a write to an
address, or an operator applied to operands. Nodes refer to each other by the graph they belong to
and their position in it, so a node of one graph is never mistaken for one of another.
-/

set_option autoImplicit false

namespace DiffGraph

/-- A node, named by the graph that issued it and its position there. -/
structure NodeId where
  owner : Nat
  index : Nat
deriving DecidableEq, Hashable, Inhabited, Repr

namespace NodeId

def name (id : NodeId) : String := s!"n{id.index}"

end NodeId

inductive Direction where
  | input
  | output
  /-- Read under its previous name and written under its next name. -/
  | update
deriving DecidableEq, Hashable, Repr

inductive Operator where
  /-- A registered operator, with the position of the overload among those of its name. -/
  | registered (name : String) (overload : Nat)
  | member (field : String)
  | index (position : Nat)
  /-- Builds an aggregate of the node's type, or converts to a scalar type. -/
  | construct
deriving DecidableEq, Hashable, Repr

namespace Operator

def name : Operator → String
  | .registered name _ => name
  | .member field => "." ++ field
  | .index position => s!"[{position}]"
  | .construct => "construct"

/-- Whether the operator takes an address to an address. -/
def isProjection : Operator → Bool
  | .member _ | .index _ => true
  | .registered .. | .construct => false

end Operator

inductive NodeKind where
  | constant (value : Value)
  | argument (name : String) (direction : Direction)
  | read (address : NodeId)
  | write (address value : NodeId)
  | expression (operator : Operator) (operands : List NodeId)
deriving DecidableEq, Hashable

namespace NodeKind

def operands : NodeKind → List NodeId
  | .constant _ | .argument .. => []
  | .read address => [address]
  | .write address value => [address, value]
  | .expression _ operands => operands

/-- What a member or element is taken of. -/
def base? : NodeKind → Option NodeId
  | .expression (.member _) (base :: _) | .expression (.index _) (base :: _) => some base
  | _ => none

theorem base?_mem_operands {kind : NodeKind} {base : NodeId} (h : kind.base? = some base) :
    base ∈ kind.operands := by
  unfold base? at h
  split at h <;> simp_all [operands]

end NodeKind

structure Node where
  type : String
  kind : NodeKind
  /-- An argument, or a member or element of one. -/
  isAddress : Bool
  /-- A digest of the node and of all it is built from. -/
  key : UInt64
deriving DecidableEq

namespace Node

def operands (node : Node) : List NodeId := node.kind.operands

def constant? (node : Node) : Option Value :=
  match node.kind with
  | .constant value => some value
  | _ => none

def argument? (node : Node) : Option (String × Direction) :=
  match node.kind with
  | .argument name direction => some (name, direction)
  | _ => none

def isArgument (node : Node) : Bool := node.argument?.isSome

def isWrite (node : Node) : Bool :=
  match node.kind with
  | .write .. => true
  | _ => false

/-- An operator applied to operands whose result is a value and not an address. -/
def isComputed (node : Node) : Bool :=
  match node.kind with
  | .expression .. => !node.isAddress
  | _ => false

end Node

end DiffGraph
