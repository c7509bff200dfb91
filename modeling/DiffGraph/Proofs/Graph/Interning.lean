import Mathlib.Tactic.ByContra
import Std.Data.HashMap.Lemmas
import DiffGraph.Graph.Basic

/-!
What interning does to a graph. A graph is interned when its index leads from type and kind to
exactly the nodes that have them, and every key is the digest of the node's own contents. Building a
node either finds it or appends it; both keep the graph interned and every older node in place.
-/

set_option autoImplicit false

namespace DiffGraph

variable {id : NodeId} {n node : Node} {g newer : Graph}

/-- A kind of node without its operands. -/
inductive Head where
  | constant (v : Value)
  | argument (name : String) (dir : Direction)
  | read
  | write
  | expression (op : Operator)
deriving DecidableEq

def NodeKind.head : NodeKind → Head
  | .constant v => .constant v
  | .argument name dir => .argument name dir
  | .read _ => .read
  | .write _ _ => .write
  | .expression op _ => .expression op

/-- Mixes the head of a node into a digest. -/
def Head.digest (state : UInt64) : Head → UInt64
  | .constant v => Digest.value (Digest.word state 0) v
  | .argument name d => Digest.direction (Digest.text (Digest.word state 1) name) d
  | .read => Digest.word state 2
  | .write => Digest.word state 3
  | .expression op => Digest.operator (Digest.word state 4) op

/-- The digest of a node mixes in its head and then the keys of the operands in their order. -/
theorem Digest.node_eq (operandKey : NodeId → UInt64) (t : String) (kind : NodeKind) :
    Digest.node operandKey t kind = (kind.operands.map operandKey).foldl Digest.word
        (kind.head.digest (Digest.text 0 t)) := by
  cases kind with
  | constant | argument | read | write => rfl
  | expression op args =>
    simp only [node, NodeKind.operands, NodeKind.head, Head.digest, List.foldl_map]

namespace Node

variable {kind : NodeKind} {op : Operator} {args : List NodeId}

theorem operands_of_kind (hk : n.kind = kind) : n.operands = kind.operands :=
  congrArg NodeKind.operands hk

theorem mem_operands (hk : n.kind = kind) (h : id ∈ kind.operands) : id ∈ n.operands :=
  operands_of_kind hk ▸ h

theorem isComputed_of_expression (hk : n.kind = .expression op args)
    (hv : n.isAddress = false) : n.isComputed = true := by
  rw [isComputed, hk, hv]
  rfl

end Node

namespace Graph

/-- Every node of the first graph has the same name and contents in the second one. -/
structure Extends (older newer : Graph) : Prop where
  owner : newer.owner = older.owner
  node? : ∀ {id : NodeId} {n : Node}, older.node? id = some n → newer.node? id = some n

theorem Extends.refl (graph : Graph) : Extends graph graph := ⟨rfl, fun h ↦ h⟩

theorem Extends.trans {first middle last : Graph} (hfst : Extends first middle)
    (hla : Extends middle last) : Extends first last :=
  ⟨hla.owner.trans hfst.owner, fun h ↦ hla.node? (hfst.node? h)⟩

theorem owns_iff_node? : g.Owns id ↔ ∃ node, g.node? id = some node := by
  constructor
  · rintro ⟨hwr, hix⟩
    refine ⟨g.nodes[id.index], ?_⟩
    rw [node?, if_pos hwr, Array.getElem?_eq_getElem hix]
  · rintro ⟨node, hn⟩
    obtain ⟨hix, -⟩ := node?_eq_some hn
    refine ⟨?_, hix⟩
    by_contra hwr
    rw [node?, if_neg hwr] at hn
    cases hn

theorem owns_of_node? (h : g.node? id = some n) : g.Owns id := owns_iff_node?.mpr ⟨n, h⟩

theorem owner_of_node? (h : g.node? id = some n) : id.owner = g.owner := (owns_of_node? h).1

theorem Extends.owns {older : Graph} (h : Extends older newer) (how : older.Owns id) :
    newer.Owns id := by
  obtain ⟨n, hn⟩ := owns_iff_node?.mp how
  exact owns_iff_node?.mpr ⟨n, h.node? hn⟩

/-- The operands of a stored node are stored. -/
theorem owns_operand {operand : NodeId} (h : g.node? id = some n)
    (hop : operand ∈ n.operands) : g.Owns operand := by
  obtain ⟨hix, rfl⟩ := node?_eq_some h
  obtain ⟨hwr, hlt⟩ := g.operands_before id.index hix operand hop
  exact ⟨hwr, Nat.lt_trans hlt hix⟩

/-- The digest of an operand, as interning looks it up. -/
def operandKey (g : Graph) (id : NodeId) : UInt64 :=
  (g.nodes[id.index]?.map Node.key).getD 0

theorem operandKey_eq (h : g.node? id = some n) : g.operandKey id = n.key := by
  obtain ⟨hix, rfl⟩ := node?_eq_some h
  rw [operandKey, Array.getElem?_eq_getElem hix]
  rfl

/-- The index leads to exactly the nodes of the graph, and keys are digests of contents. -/
structure Interned (g : Graph) : Prop where
  index_iff : ∀ (t : String) (kind : NodeKind) (id : NodeId),
    g.index[(t, kind)]? = some id ↔
      ∃ node, g.node? id = some node ∧ node.type = t ∧ node.kind = kind
  key_eq : ∀ (id : NodeId) (node : Node), g.node? id = some node →
    node.key = Digest.node g.operandKey node.type node.kind

theorem interned_empty (owner : Nat) : (empty owner).Interned := by
  have hno (id : NodeId) : (empty owner).node? id = none := by
    simp [node?, empty]
  refine ⟨fun t kind id ↦ ?_, fun id n h ↦ ?_⟩
  · rw [hno]
    simp [empty]
  · rw [hno] at h
    cases h

/-- Nodes of one type and kind are one node. -/
theorem Interned.eq_of_contents (h : g.Interned) {first second : NodeId} {a b : Node}
    (ha : g.node? first = some a) (hb : g.node? second = some b) (ht : a.type = b.type)
    (hk : a.kind = b.kind) : first = second := by
  have hfst := (h.index_iff b.type b.kind first).mpr ⟨a, ha, ht, hk⟩
  have hsnd := (h.index_iff b.type b.kind second).mpr ⟨b, hb, rfl, rfl⟩
  exact Option.some.inj (hfst.symm.trans hsnd)

/-- A digest only asks for the keys of the operands. -/
theorem digest_congr {first second : NodeId → UInt64} (t : String) {kind : NodeKind}
    (h : ∀ arg ∈ kind.operands, first arg = second arg) :
    Digest.node first t kind = Digest.node second t kind := by
  rw [Digest.node_eq, Digest.node_eq, List.map_congr_left h]

section Intern

variable {t : String} {kind : NodeKind} {isAddress : Bool}

/-- The node that interning appends. -/
def newNode (g : Graph) (t : String) (kind : NodeKind) (isAddress : Bool) : Node :=
  ⟨t, kind, isAddress, Digest.node g.operandKey t kind⟩

/-- Interning finds the node with these contents, or appends it. -/
theorem intern_cases (owned : ∀ arg ∈ kind.operands, g.Owns arg) :
    (∃ id, g.index[(t, kind)]? = some id ∧ g.intern t kind isAddress owned = (id, g)) ∨
    (∃ newer, g.index[(t, kind)]? = none ∧
      g.intern t kind isAddress owned = (⟨g.owner, g.size⟩, newer) ∧
      newer.owner = g.owner ∧
      newer.nodes = g.nodes.push (g.newNode t kind isAddress) ∧
      newer.index = g.index.insert (t, kind) ⟨g.owner, g.size⟩) := by
  cases hix : g.index[(t, kind)]? with
  | some id =>
    left
    exact ⟨id, rfl, by simp only [intern, hix]⟩
  | none =>
    right
    simp only [intern, hix]
    exact ⟨_, trivial, rfl, rfl, rfl, rfl⟩

section

variable (hwr : newer.owner = g.owner)

include hwr

theorem node?_push_old
    (hns : newer.nodes = g.nodes.push n) {old : Node} (hold : g.node? id = some old) :
    newer.node? id = some old := by
  obtain ⟨hix, rfl⟩ := node?_eq_some hold
  rw [node?, if_pos ((owner_of_node? hold).trans hwr.symm), hns, Array.getElem?_push_lt hix]

theorem node?_push_new (hns : newer.nodes = g.nodes.push node) :
    newer.node? ⟨g.owner, g.size⟩ = some node := by
  rw [node?, if_pos hwr.symm, hns]
  exact Array.getElem?_push_size

/-- A node of the longer graph is the last one or was there before. -/
theorem node?_push_cases
    (hns : newer.nodes = g.nodes.push n) {found : Node} (hf : newer.node? id = some found) :
    (id = ⟨g.owner, g.size⟩ ∧ found = n) ∨ g.node? id = some found := by
  have hid : id.owner = g.owner := (owner_of_node? hf).trans hwr
  obtain ⟨hix, hg⟩ := node?_eq_some hf
  rw [hns, Array.size_push] at hix
  by_cases hla : id.index = g.nodes.size
  · left
    have heq : id = ⟨g.owner, g.size⟩ := by
      rw [← hid, size, ← hla]
    refine ⟨heq, ?_⟩
    rw [heq, node?_push_new hwr hns] at hf
    exact (Option.some.inj hf).symm
  · right
    have hold : id.index < g.nodes.size := by omega
    rw [node?, if_pos (owner_of_node? hf), hns, Array.getElem?_push_lt hold] at hf
    rw [node?, if_pos hid, Array.getElem?_eq_getElem hold, hf]

theorem extends_push (hns : newer.nodes = g.nodes.push n) : g.Extends newer :=
  ⟨hwr, node?_push_old hwr hns⟩

end

/-- Interning keeps every node in place. -/
theorem extends_intern (owned : ∀ arg ∈ kind.operands, g.Owns arg) :
    g.Extends (g.intern t kind isAddress owned).2 := by
  rcases intern_cases owned with ⟨id, -, heq⟩ | ⟨newer, -, heq, hwr, hns, -⟩
  · rw [heq]
    exact Extends.refl g
  · rw [heq]
    exact extends_push hwr hns

/-- Interning yields a node with the contents asked for. -/
theorem node?_intern (hgraph : g.Interned) (owned : ∀ arg ∈ kind.operands, g.Owns arg) :
    ∃ n, (g.intern t kind isAddress owned).2.node?
        (g.intern t kind isAddress owned).1 = some n ∧
      n.type = t ∧ n.kind = kind := by
  rcases intern_cases owned with ⟨id, hix, heq⟩ | ⟨newer, -, heq, hwr, hns, -⟩
  · rw [heq]
    exact (hgraph.index_iff t kind id).mp hix
  · rw [heq]
    exact ⟨_, node?_push_new hwr hns, rfl, rfl⟩

/-- A node after interning was there before, or is the one that was asked for. -/
theorem node?_intern_cases (owned : ∀ arg ∈ kind.operands, g.Owns arg)
    (h : (g.intern t kind isAddress owned).2.node? id = some n) :
    g.node? id = some n ∨ id = (g.intern t kind isAddress owned).1 ∧ n.type = t ∧ n.kind = kind ∧
        n.isAddress = isAddress := by
  rcases intern_cases owned with ⟨id, -, heq⟩ | ⟨newer, -, heq, hwr, hns, -⟩
  · rw [heq] at h
    exact .inl h
  · rw [heq] at h ⊢
    rcases node?_push_cases hwr hns h with ⟨hid, rfl⟩ | hold
    · exact .inr ⟨hid, rfl, rfl, rfl⟩
    · exact .inl hold

theorem operandKey_extends {older : Graph} (h : older.Extends newer) (how : older.Owns id) :
    newer.operandKey id = older.operandKey id := by
  obtain ⟨n, hn⟩ := owns_iff_node?.mp how
  rw [operandKey_eq hn, operandKey_eq (h.node? hn)]

theorem interned_intern (hgraph : g.Interned) (owned : ∀ arg ∈ kind.operands, g.Owns arg) :
    (g.intern t kind isAddress owned).2.Interned := by
  rcases intern_cases owned with ⟨id, -, heq⟩ | ⟨newer, hfr, heq, hwr, hns, hix⟩
  · rw [heq]
    exact hgraph
  rw [heq]
  have hext := extends_push hwr hns
  refine ⟨fun otherType otherKind id ↦ ?_, fun id n hn ↦ ?_⟩
  · rw [hix, Std.HashMap.getElem?_insert]
    split
    next hsame =>
      obtain ⟨rfl, rfl⟩ := Prod.mk.inj (eq_of_beq hsame)
      constructor
      · intro h
        obtain rfl := Option.some.inj h
        exact ⟨_, node?_push_new hwr hns, rfl, rfl⟩
      · rintro ⟨n, hn, ht, hk⟩
        rcases node?_push_cases hwr hns hn with ⟨rfl, -⟩ | hold
        · rfl
        · rw [(hgraph.index_iff t kind id).mpr ⟨n, hold, ht, hk⟩] at hfr
          cases hfr
    next ho =>
      rw [hgraph.index_iff]
      constructor
      · rintro ⟨n, hn, hcontents⟩
        exact ⟨n, hext.node? hn, hcontents⟩
      · rintro ⟨n, hn, ht, hk⟩
        rcases node?_push_cases hwr hns hn with ⟨-, rfl⟩ | hold
        · subst ht hk
          exact absurd (beq_self_eq_true _) ho
        · exact ⟨n, hold, ht, hk⟩
  · rcases node?_push_cases hwr hns hn with ⟨-, rfl⟩ | hold
    · exact digest_congr t fun arg hop ↦ (operandKey_extends hext (owned arg hop)).symm
    · rw [hgraph.key_eq id n hold]
      exact digest_congr n.type fun arg hop ↦ (operandKey_extends hext (owns_operand hold hop)).symm

end Intern

end Graph

end DiffGraph
