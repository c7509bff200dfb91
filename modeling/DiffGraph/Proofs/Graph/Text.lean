import Mathlib.Logic.Function.Iterate
import DiffGraph.Draft.Basic
import DiffGraph.Proofs.Graph.Terms

/-!
The text of a node by recursion. A term is written from the texts of its operands: around them, behind
them or in a call. Writing from a list of pending pieces comes to the same text, whatever is pending
behind a node: the text of a node is the text of the term that it unfolds to, so a part that is
shared is written once for every way that leads to it (`Draft.text_eq_unfolded`).
-/

set_option autoImplicit false

namespace DiffGraph

open List Graph

/-- Texts between parentheses. -/
def Text.call (head : String) (parts : List String) : String :=
  head ++ "(" ++ ", ".intercalate parts ++ ")"

/-- The text of an application, from the texts of its operands. -/
def Operator.text (t : String) : Operator → List String → String
  | .member field, base :: _ => base ++ "." ++ field
  | .index pos, base :: _ => base ++ s!"[{pos}]"
  | .construct, parts => Text.call t parts
  | .registered name _, [a] =>
    if isSymbolic name then "(" ++ name ++ a ++ ")" else Text.call name [a]
  | .registered name _, [a, b] =>
    if isSymbolic name then "(" ++ a ++ " " ++ name ++ " " ++ b ++ ")" else Text.call name [a, b]
  | .registered name _, parts => Text.call name parts
  | .member _, [] | .index _, [] => ""

/-- The text of a node, from the texts of its operands. -/
def Head.text (t : String) : Head → List String → String
  | .constant v, _ => v.plainText
  | .argument name _, _ => name
  | .read, [addr] => addr
  | .write, [addr, v] => addr ++ " = " ++ v
  | .expression op, parts => op.text t parts
  | .read, _ | .write, _ => ""

namespace Term

mutual

/-- The text of a term. -/
def text : Term → String
  | .missing => ""
  | .node t head args => head.text t (texts args)

def texts : List Term → List String
  | [] => []
  | term :: terms => term.text :: texts terms

end

theorem texts_eq_map (terms : List Term) : texts terms = terms.map text := by
  induction terms with
  | nil => rw [texts, map_nil]
  | cons term terms ih => rw [texts, ih, map_cons]

end Term

/-- The text of a piece, from the texts of nodes. -/
def Piece.spell (text : NodeId → String) : Piece → String
  | .text s => s
  | .node id => text id

section Pieces

variable (text : NodeId → String)

theorem Piece.join_separated (ids : List NodeId) :
    String.join ((separated ids).map (spell text)) = ", ".intercalate (ids.map text) := by
  induction ids using separated.induct with
  | case1 => rfl
  | case2 id => simp [separated, spell]
  | case3 id next rest ih =>
    rw [separated, map_cons, map_cons, String.join_cons, String.join_cons, ih]
    simp [spell, String.append_assoc]

theorem Piece.join_call (head : String) (ids : List NodeId) :
    String.join ((call head ids).map (spell text)) = Text.call head (ids.map text) := by
  rw [call, map_cons, map_append, String.join_cons, String.join_append, join_separated]
  simp [spell, Text.call, String.append_assoc]

theorem Operator.join_pieces (op : Operator) (t : String) (args : List NodeId) :
    String.join ((op.pieces t args).map (Piece.spell text)) = op.text t (args.map text) := by
  unfold pieces
  split
  case h_1 | h_2 => simp [Piece.spell, Operator.text, String.append_assoc]
  case h_3 => exact Piece.join_call text _ _
  case h_4 | h_5 =>
    simp only [map_cons, map_nil, Operator.text]
    split
    · simp [Piece.spell, String.append_assoc]
    · exact Piece.join_call text _ _
  case h_6 hone htwo =>
    rw [Piece.join_call]
    match args with
    | [] | _ :: _ :: _ :: _ => rfl
    | [a] => exact (hone a rfl).elim
    | [a, b] => exact (htwo a b rfl).elim
  case h_7 | h_8 => rfl

theorem Node.join_pieces (n : Node) : String.join (n.pieces.map (Piece.spell text)) =
      n.kind.head.text n.type (n.operands.map text) := by
  rw [pieces, operands]
  cases n.kind with
  | expression op args => exact op.join_pieces text n.type args
  | constant | argument | read | write =>
    simp [NodeKind.head, NodeKind.operands, Head.text, Piece.spell, String.append_assoc]

end Pieces

namespace Graph

variable (g : Graph)

/-- The pieces of a node are the text of its term. -/
theorem join_pieces (id : NodeId) :
    String.join ((g.pieces id).map (Piece.spell fun id ↦ (g.term id).text)) = (g.term id).text := by
  rw [pieces]
  split
  next n hn =>
    rw [Node.join_pieces, term_of_node? hn, Term.text, Term.texts_eq_map, map_map]
    rfl
  next hnone =>
    rw [term]
    split
    · rfl
    next n hn => cases hnone.symm.trans hn

/-- Whatever is pending, nodes are written as their terms. -/
theorem write_eq_join (pending : List Piece) (written : String) :
    g.write pending written = written ++
      String.join (pending.map (Piece.spell fun id ↦ (g.term id).text)) := by
  fun_induction Graph.write g pending written with
  | case1 written => simp
  | case2 written s pending ih =>
    rw [ih, map_cons, String.join_cons, String.append_assoc]
    rfl
  | case3 written id pending ih =>
    rw [ih, map_append, String.join_append, join_pieces, map_cons, String.join_cons]
    rfl

theorem text_eq_term (id : NodeId) : g.text id = (g.term id).text := by
  rw [text, write_eq_join]
  simp [Piece.spell]

theorem text_of_argument {id : NodeId} {n : Node} {name : String} {dir : Direction}
    (hn : g.node? id = some n) (hk : n.kind = .argument name dir) : g.text id = name := by
  rw [text_eq_term, term_of_node? hn, hk]
  rfl

/-- One step of writing: the first pending piece is written out, or replaced by its own pieces. -/
def writeStep : List Piece × String → List Piece × String
  | ([], written) => ([], written)
  | (.text s :: pending, written) => (pending, written ++ s)
  | (.node id :: pending, written) => (g.pieces id ++ pending, written)

/-- After as many steps as the pieces take, nothing is pending. -/
theorem iterate_writeStep (pending : List Piece) (written : String) :
    g.writeStep^[totalSteps (pending.map g.pieceSteps)] (pending, written) =
      ([], g.write pending written) := by
  fun_induction Graph.write g pending written with
  | case1 written => rfl
  | case2 written s pending ih =>
    rw [map_cons, totalSteps, pieceSteps, Nat.add_comm, Function.iterate_succ_apply]
    exact ih
  | case3 written id pending ih =>
    rw [map_append, totalSteps_append] at ih
    rw [map_cons, totalSteps, pieceSteps, writingSteps_eq, Nat.add_assoc, Nat.add_comm,
      Function.iterate_succ_apply]
    exact ih

end Graph

/-- The text of a node is the text of the term that it unfolds to. Writing it piece by piece ends
after `writingSteps` steps, with nothing left to write. -/
theorem Draft.text_eq_unfolded (draft : Draft) (id : NodeId) :
    draft.text id = (if draft.graph.Owns id then .ok (draft.graph.term id).text
      else .error (.foreignAccess id.index draft.name)) ∧
      draft.graph.writeStep^[draft.graph.writingSteps id] ([.node id], "") =
        ([], (draft.graph.term id).text) := by
  constructor
  · rw [Draft.text, Draft.node]
    by_cases hid : draft.graph.Owns id
    · obtain ⟨n, hn⟩ := Graph.owns_iff_node?.mp hid
      rw [hn, if_pos hid, ← Graph.text_eq_term]
      rfl
    · cases hn : draft.graph.node? id with
      | some n => exact absurd (Graph.owns_iff_node?.mpr ⟨n, hn⟩) hid
      | none =>
        rw [if_neg hid]
        rfl
  · rw [← Graph.text_eq_term]
    exact draft.graph.iterate_writeStep [.node id] ""

end DiffGraph
