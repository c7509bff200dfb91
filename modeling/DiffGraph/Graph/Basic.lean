import Std.Data.HashMap
import DiffGraph.Graph.Key

/-!
Expression graphs. Nodes are stored in the order they were first built, and a node that is built
again is found instead: an index leads from a type and a kind to the node that has them. The
operands of a node belong to the same graph and stand before it, so every walk along operands ends.
-/

set_option autoImplicit false

namespace DiffGraph

structure Graph where
  owner : Nat
  nodes : Array Node
  index : Std.HashMap (String × NodeKind) NodeId
  operands_before : ∀ (i : Nat) (h : i < nodes.size), ∀ operand ∈ nodes[i].operands,
    operand.owner = owner ∧ operand.index < i

namespace Graph

def empty (owner : Nat) : Graph where
  owner := owner
  nodes := #[]
  index := {}
  operands_before := by intro i h; simp at h

def size (graph : Graph) : Nat := graph.nodes.size

/-- The graph issued the node. -/
def Owns (graph : Graph) (id : NodeId) : Prop :=
  id.owner = graph.owner ∧ id.index < graph.nodes.size

instance (graph : Graph) (id : NodeId) : Decidable (graph.Owns id) :=
  inferInstanceAs (Decidable (_ ∧ _))

def node? (graph : Graph) (id : NodeId) : Option Node :=
  if id.owner = graph.owner then graph.nodes[id.index]? else none

/-- The nodes of the graph in their order. -/
def ids (graph : Graph) : List NodeId :=
  (List.range graph.nodes.size).map fun i ↦ ⟨graph.owner, i⟩

theorem node?_eq_some {graph : Graph} {id : NodeId} {node : Node} (h : graph.node? id = some node) :
    ∃ inside : id.index < graph.nodes.size, graph.nodes[id.index] = node := by
  unfold node? at h
  split at h
  · exact Array.getElem?_eq_some_iff.mp h
  · cases h

/-- Operands stand before the node. -/
theorem operand_index_lt {graph : Graph} {id operand : NodeId} {node : Node}
    (h : graph.node? id = some node) (member : operand ∈ node.operands) :
    operand.index < id.index := by
  obtain ⟨inside, rfl⟩ := node?_eq_some h
  exact (graph.operands_before id.index inside operand member).2

theorem push_operands_before (graph : Graph) (node : Node)
    (owned : ∀ operand ∈ node.operands, graph.Owns operand) (i : Nat)
    (h : i < (graph.nodes.push node).size) :
    ∀ operand ∈ (graph.nodes.push node)[i].operands,
      operand.owner = graph.owner ∧ operand.index < i := by
  intro operand member
  by_cases inside : i < graph.nodes.size
  · rw [Array.getElem_push_lt inside] at member
    exact graph.operands_before i inside operand member
  · have last : i = graph.nodes.size := by
      rw [Array.size_push] at h
      omega
    subst last
    rw [Array.getElem_push_eq] at member
    exact owned operand member

/-- The node with this type and kind: the one that is there, or else a new one at the end. -/
def intern (graph : Graph) (type : String) (kind : NodeKind) (isAddress : Bool)
    (owned : ∀ operand ∈ kind.operands, graph.Owns operand) : NodeId × Graph :=
  match graph.index[(type, kind)]? with
  | some id => (id, graph)
  | none =>
    let key := Digest.node (fun id ↦ (graph.nodes[id.index]?.map Node.key).getD 0) type kind
    let id : NodeId := ⟨graph.owner, graph.nodes.size⟩
    (id,
      { owner := graph.owner
        nodes := graph.nodes.push ⟨type, kind, isAddress, key⟩
        index := graph.index.insert (type, kind) id
        operands_before := graph.push_operands_before ⟨type, kind, isAddress, key⟩ owned })

/-- The node, what it is a member or element of, what that one is part of, and so on. -/
def lineage (graph : Graph) (id : NodeId) : List NodeId :=
  match h : graph.node? id with
  | none => [id]
  | some node =>
    match hb : node.kind.base? with
    | none => [id]
    | some base =>
      have : base.index < id.index := operand_index_lt h (NodeKind.base?_mem_operands hb)
      id :: graph.lineage base
termination_by id.index

/-- The argument that an address is, or is a part of. -/
def root? (graph : Graph) (id : NodeId) : Option NodeId :=
  (graph.lineage id).getLast?.filter fun root ↦ (graph.node? root).any Node.isArgument

/-- The sum of a list of numbers of steps. -/
def totalSteps : List Nat → Nat
  | [] => 0
  | steps :: rest => steps + totalSteps rest

theorem totalSteps_append (first second : List Nat) :
    totalSteps (first ++ second) = totalSteps first + totalSteps second := by
  induction first with
  | nil => simp only [List.nil_append, totalSteps, Nat.zero_add]
  | cons steps rest ih => simp only [List.cons_append, totalSteps, ih, Nat.add_assoc]

/-- Marks the operands of a node. -/
def mark (marks : Array Bool) (operands : List NodeId) : Array Bool :=
  operands.foldl (fun marks operand ↦ marks.setIfInBounds operand.index true) marks

/-- Goes through the positions below `bound` from the last to the first, collecting the marked nodes
and marking the operands of those that `expand` admits. -/
def collect (graph : Graph) (expand : Node → Bool) : Nat → Array Bool → List NodeId → List NodeId
  | 0, _, found => found
  | position + 1, marks, found =>
    if marks.getD position false then
      let marks :=
        match graph.nodes[position]? with
        | some node => if expand node then mark marks node.operands else marks
        | none => marks
      graph.collect expand position marks (⟨graph.owner, position⟩ :: found)
    else graph.collect expand position marks found

/-- The node and all that is reached from it along operands of nodes that `expand` admits, every
operand before the nodes that use it. -/
def closure (graph : Graph) (expand : Node → Bool) (root : NodeId) : List NodeId :=
  graph.collect expand (root.index + 1)
    ((Array.replicate (root.index + 1) false).setIfInBounds root.index true) []

end Graph

end DiffGraph
