import DiffGraph.Draft.Basic

/-!
What the writes of a function depend on. The walk starts at each write in turn and goes along
operands; a node is put in order once all its operands are. Beside the order the analysis records
the operands of every node, and which nodes use a node, once for every operand position.
-/

set_option autoImplicit false

namespace DiffGraph

namespace Graph

def operands (graph : Graph) (id : NodeId) : List NodeId :=
  ((graph.node? id).map Node.operands).getD []

theorem index_lt_of_mem_operands {graph : Graph} {id operand : NodeId}
    (h : operand ∈ graph.operands id) : operand.index < id.index := by
  unfold operands at h
  cases hn : graph.node? id with
  | none => simp [hn] at h
  | some node =>
    simp only [hn, Option.map_some, Option.getD_some] at h
    exact operand_index_lt hn h

end Graph

/-- A task of the walk: to enter a node, or to leave it when its operands are done. -/
inductive Visit where
  | enter (id : NodeId)
  | leave (id : NodeId)

namespace Graph

/-- How many tasks entering a node leads to at most. -/
def enterSteps (graph : Graph) (id : NodeId) : Nat :=
  2 + totalSteps ((graph.operands id).attach.map fun ⟨operand, h⟩ ↦
    have : operand.index < id.index := index_lt_of_mem_operands h
    graph.enterSteps operand)
termination_by id.index

theorem enterSteps_eq (graph : Graph) (id : NodeId) :
    graph.enterSteps id = 2 + totalSteps ((graph.operands id).map graph.enterSteps) := by
  rw [enterSteps]
  congr 2
  conv => rhs; rw [← List.attach_map_subtype_val (graph.operands id), List.map_map]
  apply List.map_congr_left
  rintro ⟨operand, _⟩ _
  rfl

def visitSteps (graph : Graph) : Visit → Nat
  | .enter id => graph.enterSteps id
  | .leave _ => 1

theorem visitSteps_comp_enter (graph : Graph) : graph.visitSteps ∘ .enter = graph.enterSteps := rfl

end Graph

structure Dependencies where
  /-- Nodes in the order in which they were first entered. -/
  discovered : Array NodeId
  /-- Nodes with every operand before the nodes that use it. -/
  inOrder : Array NodeId
  /-- The nodes that were entered, with their operands. -/
  operands : Std.HashMap NodeId (List NodeId)
  /-- The nodes that use a node, once for every operand position. -/
  users : Std.HashMap NodeId (Array NodeId)

namespace Dependencies

def empty : Dependencies := ⟨#[], #[], ∅, ∅⟩

/-- Enters a node that was not entered before. -/
def enter (graph : Graph) (found : Dependencies) (id : NodeId) : Dependencies where
  discovered := found.discovered.push id
  inOrder := found.inOrder
  operands := found.operands.insert id (graph.operands id)
  users := (graph.operands id).foldl
    (fun users operand ↦ users.insert operand ((users.getD operand #[]).push id)) found.users

/-- Works through the pending tasks. -/
def walk (graph : Graph) : List Visit → Dependencies → Dependencies
  | [], found => found
  | .leave id :: pending, found =>
    walk graph pending { found with inOrder := found.inOrder.push id }
  | .enter id :: pending, found =>
    if found.operands.contains id then walk graph pending found
    else
      walk graph ((graph.operands id).map .enter ++ .leave id :: pending) (found.enter graph id)
termination_by pending => Graph.totalSteps (pending.map graph.visitSteps)
decreasing_by
  · simp only [List.map_cons, Graph.totalSteps, Graph.visitSteps]
    omega
  · simp only [List.map_cons, Graph.totalSteps, Graph.visitSteps, Graph.enterSteps_eq graph id]
    omega
  · simp only [List.map_cons, List.map_append, List.map_map, Graph.totalSteps,
      Graph.totalSteps_append, Graph.visitSteps_comp_enter, Graph.visitSteps,
      Graph.enterSteps_eq graph id]
    omega

/-- What the given nodes depend on. -/
def of (graph : Graph) (roots : List NodeId) : Dependencies :=
  walk graph (roots.map .enter) empty

def operandsOf (dependencies : Dependencies) (id : NodeId) : List NodeId :=
  dependencies.operands.getD id []

def usersOf (dependencies : Dependencies) (id : NodeId) : Array NodeId :=
  dependencies.users.getD id #[]

def useCount (dependencies : Dependencies) (id : NodeId) : Nat := (dependencies.usersOf id).size

def contains (dependencies : Dependencies) (id : NodeId) : Bool :=
  dependencies.operands.contains id

def size (dependencies : Dependencies) : Nat := dependencies.inOrder.size

end Dependencies

namespace Draft

/-- What the writes of a function depend on. -/
def dependencies (draft : Draft) : Dependencies := .of draft.graph draft.writes

end Draft

end DiffGraph
