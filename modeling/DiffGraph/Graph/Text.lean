import DiffGraph.Graph.Basic
import DiffGraph.Text.Alphanumeric

/-!
Expressions as text. A node is a sequence of pieces, each a piece of text or another node. The text
of a node is written from a list of pending pieces: the first one is written out, or replaced by its
own pieces, until none is left.
-/

set_option autoImplicit false

namespace DiffGraph

inductive Piece where
  | text (s : String)
  | node (id : NodeId)
deriving DecidableEq

namespace Piece

def separated : List NodeId → List Piece
  | [] => []
  | [id] => [.node id]
  | id :: next :: rest => .node id :: .text ", " :: separated (next :: rest)

/-- Operands between parentheses. -/
def call (head : String) (operands : List NodeId) : List Piece :=
  .text (head ++ "(") :: (separated operands ++ [.text ")"])

theorem mem_of_mem_separated {id : NodeId} {ids : List NodeId}
    (h : Piece.node id ∈ separated ids) : id ∈ ids := by
  induction ids using separated.induct with
  | case1 => simp [separated] at h
  | case2 => simpa [separated] using h
  | case3 first next rest ih =>
    simp only [separated, List.mem_cons, Piece.node.injEq, reduceCtorEq, false_or] at h
    rcases h with rfl | h
    · simp
    · exact List.mem_cons_of_mem _ (ih h)

theorem mem_of_mem_call {id : NodeId} {head : String} {ids : List NodeId}
    (h : Piece.node id ∈ call head ids) : id ∈ ids := by
  simp only [call, List.mem_cons, List.mem_append, reduceCtorEq, false_or, List.not_mem_nil,
    or_false] at h
  exact mem_of_mem_separated h

end Piece

namespace Operator

/-- A name that does not begin like a word is written between its operands. -/
def isSymbolic (name : String) : Bool :=
  match name.toList with
  | [] => true
  | c :: _ => !(Text.isAlphanumeric c || c == '_')

def pieces (operator : Operator) (type : String) (operands : List NodeId) : List Piece :=
  match operator, operands with
  | .member field, base :: _ => [.node base, .text ("." ++ field)]
  | .index position, base :: _ => [.node base, .text s!"[{position}]"]
  | .construct, operands => Piece.call type operands
  | .registered name _, [a] =>
    if isSymbolic name then [.text ("(" ++ name), .node a, .text ")"] else Piece.call name [a]
  | .registered name _, [a, b] =>
    if isSymbolic name then [.text "(", .node a, .text (" " ++ name ++ " "), .node b, .text ")"]
    else Piece.call name [a, b]
  | .registered name _, operands => Piece.call name operands
  | .member _, [] | .index _, [] => []

theorem mem_of_mem_pieces {operator : Operator} {type : String} {operands : List NodeId}
    {id : NodeId} (h : Piece.node id ∈ operator.pieces type operands) : id ∈ operands := by
  unfold pieces at h
  split at h
  case h_1 | h_2 => simp_all
  case h_3 | h_6 => exact Piece.mem_of_mem_call h
  case h_4 =>
    split at h
    · simp_all
    · exact Piece.mem_of_mem_call h
  case h_5 =>
    split at h
    · simp_all
    · exact Piece.mem_of_mem_call h
  case h_7 | h_8 => simp at h

end Operator

namespace Node

def pieces (node : Node) : List Piece :=
  match node.kind with
  | .constant value => [.text value.plainText]
  | .argument name _ => [.text name]
  | .read address => [.node address]
  | .write address value => [.node address, .text " = ", .node value]
  | .expression operator operands => operator.pieces node.type operands

theorem mem_of_mem_pieces {node : Node} {id : NodeId} (h : Piece.node id ∈ node.pieces) :
    id ∈ node.operands := by
  obtain ⟨type, kind, isAddress, key⟩ := node
  cases kind with
  | constant value => simp [pieces] at h
  | argument name direction => simp [pieces] at h
  | read address => simpa [pieces, operands, NodeKind.operands] using h
  | write address value => simpa [pieces, operands, NodeKind.operands] using h
  | expression operator parts => exact Operator.mem_of_mem_pieces h

end Node

namespace Graph

def pieces (graph : Graph) (id : NodeId) : List Piece :=
  match graph.node? id with
  | some node => node.pieces
  | none => []

theorem index_lt_of_mem_pieces {graph : Graph} {id part : NodeId}
    (h : Piece.node part ∈ graph.pieces id) : part.index < id.index := by
  unfold pieces at h
  split at h
  case h_1 node hn => exact operand_index_lt hn (Node.mem_of_mem_pieces h)
  case h_2 => simp at h

/-- How many steps it takes to write a node. -/
def writingSteps (graph : Graph) (id : NodeId) : Nat :=
  1 + totalSteps ((graph.pieces id).attach.map fun piece ↦
    match piece with
    | ⟨.text _, _⟩ => 1
    | ⟨.node part, h⟩ =>
      have : part.index < id.index := index_lt_of_mem_pieces h
      graph.writingSteps part)
termination_by id.index

def pieceSteps (graph : Graph) : Piece → Nat
  | .text _ => 1
  | .node id => graph.writingSteps id

theorem writingSteps_eq (graph : Graph) (id : NodeId) :
    graph.writingSteps id = 1 + totalSteps ((graph.pieces id).map graph.pieceSteps) := by
  rw [writingSteps]
  congr 2
  conv => rhs; rw [← List.attach_map_subtype_val (graph.pieces id), List.map_map]
  apply List.map_congr_left
  rintro ⟨piece, _⟩ _
  cases piece <;> rfl

/-- Writes the pending pieces behind the text written so far. -/
def write (graph : Graph) : List Piece → String → String
  | [], written => written
  | .text s :: pending, written => graph.write pending (written ++ s)
  | .node id :: pending, written => graph.write (graph.pieces id ++ pending) written
termination_by pending => totalSteps (pending.map graph.pieceSteps)
decreasing_by
  · simp only [List.map_cons, totalSteps, pieceSteps]
    omega
  · simp only [List.map_cons, List.map_append, totalSteps, totalSteps_append, pieceSteps,
      writingSteps_eq graph id]
    omega

/-- The text of a node. -/
def text (graph : Graph) (id : NodeId) : String := graph.write [.node id] ""

/-- The text of a node in a diagnostic, cut off after eighty characters. -/
def describe (graph : Graph) (id : NodeId) : String :=
  if id.owner = graph.owner then
    let text := graph.text id
    let short :=
      if 80 < text.length then String.ofList (text.toList.take 77) ++ "..." else text
    s!"{id.name} `{short}`"
  else id.name

end Graph

end DiffGraph
