import DiffGraph.Proofs.Graph.Interning

/-!
Unfolded terms. The term of a node is what is left of it when sharing and positions are forgotten:
its type, what kind of node it is, and the terms of its operands. In an interned graph a node is its
term: nodes with equal terms are one node, and keys are digests of terms alone.
-/

set_option autoImplicit false

namespace DiffGraph

open List

variable {g : Graph} {id : NodeId} {n : Node}

namespace NodeKind

/-- Head and operands determine the kind. -/
theorem eq_of_head_operands {first second : NodeKind} (hhd : first.head = second.head)
    (hops : first.operands = second.operands) : first = second := by
  cases first <;> cases second <;> simp_all [head, operands]

end NodeKind

/-- An expression without sharing. -/
inductive Term where
  /-- No node has this name. -/
  | missing
  | node (t : String) (head : Head) (args : List Term)

namespace Graph

/-- The unfolded term of a node. -/
def term (g : Graph) (id : NodeId) : Term :=
  match h : g.node? id with
  | none => .missing
  | some n =>
    .node n.type n.kind.head (n.operands.attach.map fun ⟨arg, member⟩ ↦
      have : arg.index < id.index := operand_index_lt h member
      g.term arg)
termination_by id.index

theorem term_of_node? (h : g.node? id = some n) :
    g.term id = .node n.type n.kind.head (n.operands.map g.term) := by
  rw [term]
  split
  next hno =>
    rw [h] at hno
    cases hno
  next found hf =>
    rw [h] at hf
    obtain rfl := Option.some.inj hf
    congr 1
    conv => rhs; rw [← attach_map_subtype_val n.operands, map_map]
    rfl

/-- The term of a node stays what it is while the graph grows. -/
theorem term_extends {older newer : Graph} (h : older.Extends newer) (how : older.Owns id) :
    newer.term id = older.term id := by
  induction hix : id.index using Nat.strongRecOn generalizing id with
  | ind index ih =>
    obtain ⟨n, hn⟩ := owns_iff_node?.mp how
    rw [term_of_node? hn, term_of_node? (h.node? hn)]
    congr 1
    apply map_congr_left
    intro arg hop
    have hlt := operand_index_lt hn hop
    exact ih arg.index (by omega) (owns_operand hn hop) rfl

/-- In an interned graph a node is found again from its term. -/
theorem Interned.eq_of_term (h : g.Interned) {first second : NodeId} (hfst : g.Owns first)
    (hsnd : g.Owns second) (htm : g.term first = g.term second) :
    first = second := by
  induction hix : first.index using Nat.strongRecOn generalizing first second with
  | ind index ih =>
    obtain ⟨a, ha⟩ := owns_iff_node?.mp hfst
    obtain ⟨b, hb⟩ := owns_iff_node?.mp hsnd
    rw [term_of_node? ha, term_of_node? hb] at htm
    obtain ⟨ht, hhd, hops⟩ := Term.node.inj htm
    have hlen : a.operands.length = b.operands.length := by
      simpa using congrArg length hops
    have hsame : a.operands = b.operands := by
      refine ext_getElem hlen fun i hi hi' ↦ ?_
      have hi'' : i < (a.operands.map g.term).length := by
        rwa [length_map]
      have hat : g.term a.operands[i] = g.term b.operands[i] := by
        have := getElem_of_eq hops hi''
        rwa [getElem_map, getElem_map] at this
      have hlt := operand_index_lt ha (getElem_mem hi)
      exact ih _ (by omega) (owns_operand ha (getElem_mem hi))
        (owns_operand hb (getElem_mem hi')) hat rfl
    exact h.eq_of_contents ha hb ht (NodeKind.eq_of_head_operands hhd hsame)

end Graph

namespace Term

mutual

/-- The digest of a term. -/
def digest : Term → UInt64
  | .missing => 0
  | .node t head args =>
    (digests args).foldl Digest.word (head.digest (Digest.text 0 t))

def digests : List Term → List UInt64
  | [] => []
  | term :: terms => term.digest :: digests terms

end

theorem digests_eq_map (terms : List Term) : digests terms = terms.map digest := by
  induction terms with
  | nil => rfl
  | cons term terms ih => rw [digests, ih, map_cons]

end Term

namespace Graph

/-- In an interned graph the key of a node is the digest of its term. -/
theorem Interned.key_eq_digest (h : g.Interned)
    (hn : g.node? id = some n) : n.key = (g.term id).digest := by
  induction hix : id.index using Nat.strongRecOn generalizing id n with
  | ind index ih =>
    rw [h.key_eq id n hn, Digest.node_eq, term_of_node? hn, Term.digest,
      Term.digests_eq_map, map_map]
    congr 1
    apply map_congr_left
    intro arg hop
    obtain ⟨m, hf⟩ := owns_iff_node?.mp (owns_operand hn hop)
    have hlt := operand_index_lt hn hop
    rw [operandKey_eq hf]
    exact ih arg.index (by omega) hf rfl

end Graph

end DiffGraph
