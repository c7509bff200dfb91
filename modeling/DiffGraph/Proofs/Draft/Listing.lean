import Mathlib
import DiffGraph.Operator.Standard.Registry
import DiffGraph.Proofs.Draft.Operations
import DiffGraph.Proofs.Draft.Requests

/-!
Drafts written out. A draft is known up to keys and index once its nodes, arguments and writes are
listed (`Draft.Lists`). What requests leave behind of an empty draft can be computed
(`Lists.of_listing`), and everything else about the draft is read off the list.
-/

set_option autoImplicit false

namespace DiffGraph

open Stateful

variable {t type name : String} {kind : NodeKind} {direction : Direction} {isAddress : Bool}
  {id : NodeId} {d : Draft} {nodes : List (String × NodeKind × Bool)}
  {arguments : List (String × NodeId)} {writes : List NodeId}

namespace Node

/-- A node without its key. -/
def content (node : Node) : String × NodeKind × Bool := (node.type, node.kind, node.isAddress)

end Node

theorem exists_of_isOk {ε α : Type} {outcome : Except ε α} (h : outcome.isOk = true) :
    ∃ result, outcome = .ok result := by
  cases outcome with
  | ok result => exact ⟨result, rfl⟩
  | error => cases h

namespace Draft

/-- The nodes, arguments and writes of a draft. All that does not change with them is taken from
the draft it grew out of. -/
structure Lists (start d : Draft) (nodes : List (String × NodeKind × Bool))
    (arguments : List (String × NodeId)) (writes : List NodeId) : Prop where
  reachable : d.Reachable
  owner : d.graph.owner = start.graph.owner
  options : d.options = start.options
  operators : d.operators = start.operators
  types : d.types = start.types
  nodes : d.graph.nodes.toList.map Node.content = nodes
  arguments : d.arguments = arguments
  writes : d.writes = writes

/-- The draft that requests leave behind, one after the other. -/
def requested (d : Draft) (requests : List Request) : Draft :=
  d.afterAll (requests.map .request)

/-- What can be seen of a draft. -/
def listing (d : Draft) : (Nat × Options × Registry × TypeTable) ×
    List (String × NodeKind × Bool) × List (String × NodeId) × List NodeId :=
  ((d.graph.owner, d.options, d.operators, d.types),
    d.graph.nodes.toList.map Node.content, d.arguments, d.writes)

/-- What operations leave behind can be computed. -/
theorem Lists.of_listing {start : Draft} (h : d.Reachable)
    (hlisting : d.listing = (start.listing.1, nodes, arguments, writes)) :
    start.Lists d nodes arguments writes := by
  simp only [listing, Prod.mk.injEq] at hlisting
  obtain ⟨⟨hwr, hopts, hopr, hts⟩, hns, hargs, hws⟩ := hlisting
  exact ⟨h, hwr, hopts, hopr, hts, hns, hargs, hws⟩

section Lookup

variable {start : Draft}

section

variable (h : start.Lists d nodes arguments writes)

include h

theorem Lists.sound : d.Sound := h.reachable.sound

theorem Lists.size : d.graph.nodes.size = nodes.length := by
  rw [← h.nodes, List.length_map, Array.length_toList]

theorem Lists.node? (pos : Nat) (hpos : nodes[pos]? = some (t, kind, isAddress)) :
    ∃ n, d.graph.node? ⟨start.graph.owner, pos⟩ = some n ∧ n.type = t ∧
      n.kind = kind ∧ n.isAddress = isAddress := by
  rw [← h.nodes, List.getElem?_map, Array.getElem?_toList] at hpos
  obtain ⟨n, hn, hcontent⟩ := Option.map_eq_some_iff.mp hpos
  refine ⟨n, ?_, congrArg Prod.fst hcontent, congrArg (·.2.1) hcontent, congrArg (·.2.2) hcontent⟩
  rw [Graph.node?, if_pos h.owner.symm, hn]

theorem Lists.holdsValue (pos : Nat) (hpos : nodes[pos]? = some (type, kind, false)) :
    d.HoldsValue ⟨start.graph.owner, pos⟩ type := by
  obtain ⟨n, hn, ht, -, haddr⟩ := h.node? pos hpos
  exact ⟨n, hn, ht, haddr⟩

/-- Every node of the draft is listed at its position. -/
theorem Lists.of_node? {n : Node} (hn : d.graph.node? id = some n) :
    id.owner = start.graph.owner ∧ nodes[id.index]? = some n.content := by
  have hwr := Graph.owner_of_node? hn
  refine ⟨hwr.trans h.owner, ?_⟩
  rw [Graph.node?, if_pos hwr] at hn
  rw [← h.nodes, List.getElem?_map, Array.getElem?_toList, hn]
  rfl

theorem Lists.operands (pos : Nat) (hpos : nodes[pos]? = some (t, kind, isAddress)) :
    d.graph.operands ⟨start.graph.owner, pos⟩ = kind.operands := by
  obtain ⟨n, hn, -, rfl, -⟩ := h.node? pos hpos
  rw [Graph.operands, hn]
  rfl

theorem Lists.owns_iff :
    d.graph.Owns id ↔ id.owner = start.graph.owner ∧ id.index < nodes.length := by
  rw [Graph.Owns, h.owner, h.size]

end

end Lookup

section Requests

variable {start : Draft}

theorem after_request (d : Draft) (q : Request) : d.after (.request q) =
      ((Build.perform d.options.replacementLimit q).run d).2 := rfl

/-- A constant that is normalized already is put into the draft as it is. -/
theorem Reachable.of_constant (h : d.Reachable) {v : Value} (defn : TypeDefinition)
    (ht : d.types.get? t = some defn) (hv : defn.normalize v = v) :
    ((Build.intern t (.constant v) false).run d).2.Reachable := by
  have haf : d.after (.request (.constant t v)) =
      ((Build.intern t (.constant v) false).run d).2 := by
    rw [after_request, Build.perform_eq, Build.performWith, Build.constant,
      run_bind_of_ok (Build.run_lookupType_of_some ht), hv]
  exact haf ▸ h.operate _

end Requests

section Sample

/-- The draft that samples grow out of. -/
def blank : Draft := .new 0 "f" .standard .scalars .default

theorem reachable_requested (requests : List Request) : (blank.requested requests).Reachable :=
  .afterAll (.new ..) _

theorem operators_requested (requests : List Request) :
    (blank.requested requests).operators = .standard :=
  ((Reachable.new ..).precedes_afterAll _).operators

theorem Lists.node?_blank (h : blank.Lists d nodes arguments writes) (pos : Nat)
    (hpos : nodes[pos]? = some (t, kind, isAddress)) :
    ∃ n, d.graph.node? ⟨0, pos⟩ = some n ∧ n.type = t ∧ n.kind = kind ∧ n.isAddress = isAddress :=
  h.node? pos hpos

/-- A function that reads its input and does nothing else. -/
def inputDraft : Draft := blank.requested [.declare "x" "double" .input, .read ⟨0, 0⟩]

theorem lists_input : blank.Lists inputDraft
    [("double", .argument "x" .input, true), ("double", .read ⟨0, 0⟩, false)] [("x", ⟨0, 0⟩)] [] :=
  .of_listing (reachable_requested _) (by cbv)

/-- The nodes of a function that writes the maximum of a number and itself, where the number is the
minimum of the input and itself. -/
def minMax : List (String × NodeKind × Bool) :=
  [("double", .argument "y" .output, true),
    ("double", .argument "x" .input, true),
    ("double", .read ⟨0, 1⟩, false),
    ("double", .expression (.registered "min" 0) [⟨0, 2⟩, ⟨0, 2⟩], false),
    ("double", .expression (.registered "max" 0) [⟨0, 3⟩, ⟨0, 3⟩], false),
    ("double", .write ⟨0, 0⟩ ⟨0, 4⟩, false)]

/-- The function, with any name for its input. -/
def minMaxDraft (name : String) : Draft :=
  blank.requested [.declare "y" "double" .output, .declare name "double" .input, .read ⟨0, 1⟩,
    .apply "min" [.node ⟨0, 2⟩, .node ⟨0, 2⟩], .apply "max" [.node ⟨0, 3⟩, .node ⟨0, 3⟩],
    .write ⟨0, 0⟩ (.node ⟨0, 4⟩)]

theorem exists_minMax : ∃ d : Draft, d.Reachable ∧
    blank.Lists d minMax [("y", ⟨0, 0⟩), ("x", ⟨0, 1⟩)] [⟨0, 5⟩] :=
  ⟨minMaxDraft "x", reachable_requested _, .of_listing (reachable_requested _) (by cbv)⟩

end Sample

end Draft

end DiffGraph
