import Mathlib.Data.List.Basic
import DiffGraph.Proofs.Graph.Lineage

/-!
What the nodes of a graph stand for. A model gives a meaning to constants, to the reads of addresses
and to the operators by name; a node then denotes what its operator makes of what its operands
denote. A read is known to the model by the argument it belongs to and the way into it, so two graphs
with arguments of the same names can be compared under one model.

A graph that grows leaves the meaning of its nodes as it is (`denote_extends`).
-/

set_option autoImplicit false

namespace DiffGraph

variable {name : String}

/-- The way to a part of an argument: the operators that take it, the last one first. -/
structure AccessPath where
  argument : String
  slots : List Operator
deriving DecidableEq

namespace AccessPath

def slot (path : AccessPath) (op : Operator) : AccessPath :=
  ⟨path.argument, op :: path.slots⟩

/-- The same way in another argument. -/
def within (path : AccessPath) (arg : String) : AccessPath := ⟨arg, path.slots⟩

end AccessPath

/-- The operator that takes a member or an element. -/
def NodeKind.slot? : NodeKind → Option Operator
  | .expression (.member field) (_ :: _) => some (.member field)
  | .expression (.index pos) (_ :: _) => some (.index pos)
  | _ => none

namespace Graph

variable {g older newer : Graph} {id base : NodeId} {n node : Node}

/-- The argument that an address belongs to, with its name and direction. -/
def argumentOf? (g : Graph) (id : NodeId) : Option (String × Direction) :=
  (g.root? id).bind fun root ↦ (g.node? root).bind Node.argument?

def accessPath? (g : Graph) (id : NodeId) : Option AccessPath :=
  (g.argumentOf? id).map fun e ↦
    ⟨e.1, (g.lineage id).filterMap fun part ↦
      (g.node? part).bind fun n ↦ n.kind.slot?⟩

theorem argumentOf?_eq_some_of_accessPath? {path : AccessPath} (h : g.accessPath? id = some path) :
    ∃ dir, g.argumentOf? id = some (path.argument, dir) := by
  obtain ⟨⟨name, dir⟩, harg, rfl⟩ := Option.map_eq_some_iff.mp h
  exact ⟨dir, harg⟩

theorem argumentOf?_of_argument (hn : g.node? id = some n) {dir : Direction}
    (hk : n.kind = .argument name dir) :
    g.argumentOf? id = some (name, dir) := by
  have harg : n.argument? = some (name, dir) := by rw [Node.argument?, hk]
  have hrt : g.root? id = some id :=
    root?_of_argument hn (by rw [Node.isArgument, harg]; rfl) (by rw [hk]; rfl)
  rw [argumentOf?, hrt, Option.bind_some, hn, Option.bind_some, harg]

theorem accessPath?_of_argument (hn : g.node? id = some n) {dir : Direction}
    (hk : n.kind = .argument name dir) : g.accessPath? id = some ⟨name, []⟩ := by
  have hslots : (g.lineage id).filterMap
      (fun part ↦ (g.node? part).bind fun n ↦ n.kind.slot?) = [] := by
    rw [lineage_of_base_none hn (by rw [hk]; rfl)]
    simp only [List.filterMap_cons, hn, Option.bind_some, hk, NodeKind.slot?, List.filterMap_nil]
  rw [accessPath?, argumentOf?_of_argument hn hk, Option.map_some, hslots]

section Parts

variable {op operator : Operator} {rest : List NodeId}

theorem base?_of_projection (hk : n.kind = .expression op (base :: rest))
    (hopt : op.isProjection = true) : n.kind.base? = some base := by
  cases op with
  | registered | construct => cases hopt
  | member | index => rw [hk]; rfl

theorem slot?_of_projection (hk : n.kind = .expression operator (base :: rest))
    (hopt : operator.isProjection = true) : n.kind.slot? = some operator := by
  cases operator with
  | registered | construct => cases hopt
  | member | index => rw [hk]; rfl

theorem argumentOf?_of_projection (hn : g.node? id = some n)
    (hk : n.kind = .expression op (base :: rest)) (hopt : op.isProjection = true) :
    g.argumentOf? id = g.argumentOf? base := by
  rw [argumentOf?, argumentOf?, root?_of_base hn (base?_of_projection hk hopt)]

/-- The way to a part goes on from the way to what it is a part of. -/
theorem accessPath?_of_projection (hn : g.node? id = some n)
    (hk : n.kind = .expression operator (base :: rest)) (hopt : operator.isProjection = true) :
    g.accessPath? id = (g.accessPath? base).map fun path ↦ path.slot operator := by
  rw [accessPath?, accessPath?, argumentOf?_of_projection hn hk hopt,
    lineage_of_base hn (base?_of_projection hk hopt)]
  simp only [List.filterMap_cons, hn, Option.bind_some, slot?_of_projection hk hopt, Option.map_map]
  rfl

end Parts

theorem argumentOf?_extends (h : older.Extends newer) (how : older.Owns id) :
    newer.argumentOf? id = older.argumentOf? id := by
  rw [argumentOf?, argumentOf?, root?_extends h how]
  cases hrt : older.root? id with
  | none => rfl
  | some root =>
    obtain ⟨n, hn⟩ := owns_iff_node?.mp (owns_root? how hrt)
    rw [Option.bind_some, Option.bind_some, hn, h.node? hn]

theorem accessPath?_extends (h : older.Extends newer) (how : older.Owns id) :
    newer.accessPath? id = older.accessPath? id := by
  have hslots : (newer.lineage id).filterMap
        (fun part ↦ (newer.node? part).bind fun n ↦ n.kind.slot?) =
      (older.lineage id).filterMap (fun part ↦ (older.node? part).bind fun n ↦ n.kind.slot?) := by
    rw [lineage_extends h how]
    refine List.filterMap_congr fun part hp ↦ ?_
    obtain ⟨n, hn⟩ := owns_iff_node?.mp (owns_of_mem_lineage how hp)
    rw [hn, h.node? hn]
  rw [accessPath?, accessPath?, argumentOf?_extends h how, hslots]

end Graph

/-- A meaning for constants, reads and registered operators. -/
structure Model (α : Type) where
  constant : Value → α
  read : AccessPath → α
  operate : String → List α → α

namespace Graph

variable {α : Type} [Zero α]

/-- What a value stands for. Addresses and writes, and what no model speaks of, stand for zero. -/
def denote (g : Graph) (model : Model α) (id : NodeId) : α :=
  match h : g.node? id with
  | none => 0
  | some n =>
    match n.kind with
    | .constant v => model.constant v
    | .read addr => (g.accessPath? addr).elim 0 model.read
    | .expression (.registered name _) _ =>
      model.operate name (n.operands.attach.map fun ⟨arg, member⟩ ↦
        have : arg.index < id.index := operand_index_lt h member
        g.denote model arg)
    | _ => 0
termination_by id.index

variable {g older newer : Graph} {model : Model α} {id : NodeId} {n node : Node}

theorem denote_of_node? (h : g.node? id = some n) : g.denote model id = match n.kind with
      | .constant v => model.constant v
      | .read addr => (g.accessPath? addr).elim 0 model.read
      | .expression (.registered name _) args =>
        model.operate name (args.map (g.denote model))
      | _ => 0 := by
  have hops : n.operands.attach.map (fun arg ↦ g.denote model arg.1) =
      n.kind.operands.map (g.denote model) :=
    List.attach_map_val
  rw [denote]
  split
  next hno => cases hno.symm.trans h
  next found hf =>
    obtain rfl := Option.some.inj (hf.symm.trans h)
    rw [hops]
    cases found.kind with
    | expression op args => cases op <;> rfl
    | _ => rfl

theorem denote_constant (h : g.node? id = some n) {value : Value}
    (hk : n.kind = .constant value) : g.denote model id = model.constant value := by
  simp only [denote_of_node? h, hk]

theorem denote_read (h : g.node? id = some n) {addr : NodeId} {path : AccessPath}
    (hk : n.kind = .read addr) (hpath : g.accessPath? addr = some path) :
    g.denote model id = model.read path := by
  simp only [denote_of_node? h, hk, hpath, Option.elim_some]

theorem denote_registered (h : g.node? id = some n) {pos : Nat} {args : List NodeId}
    (hk : n.kind = .expression (.registered name pos) args) :
    g.denote model id = model.operate name (args.map (g.denote model)) := by
  simp only [denote_of_node? h, hk]

/-- A graph that grows leaves the meaning of its nodes as it is. -/
theorem denote_extends (h : older.Extends newer) (how : older.Owns id) :
    newer.denote model id = older.denote model id := by
  induction hix : id.index using Nat.strongRecOn generalizing id with
  | ind index ih =>
    obtain ⟨n, hn⟩ := owns_iff_node?.mp how
    have howd : ∀ operand ∈ n.kind.operands, older.Owns operand := fun operand hop ↦
      owns_operand hn hop
    have hops : n.kind.operands.map (newer.denote model) =
        n.kind.operands.map (older.denote model) := by
      refine List.map_congr_left fun operand hop ↦ ?_
      exact ih operand.index (hix ▸ operand_index_lt hn hop) (howd operand hop) rfl
    rw [denote_of_node? hn, denote_of_node? (h.node? hn)]
    cases hk : n.kind with
    | constant | argument | write => rfl
    | read addr =>
      rw [hk] at howd
      simp only [accessPath?_extends h (howd addr List.mem_cons_self)]
    | expression op args =>
      rw [hk] at hops
      cases op with
      | registered name pos => exact congrArg (model.operate name) hops
      | member | index | construct => rfl

/-- Values of nodes that are as the model says. What no model speaks of has any value. -/
structure Obeys (g : Graph) (model : Model α) (v : NodeId → α) : Prop where
  constant : ∀ ⦃id : NodeId⦄ ⦃n : Node⦄ ⦃stored : Value⦄, g.node? id = some n →
    n.kind = .constant stored → v id = model.constant stored
  read : ∀ ⦃id addr : NodeId⦄ ⦃n : Node⦄ ⦃path : AccessPath⦄, g.node? id = some n →
    n.kind = .read addr → g.accessPath? addr = some path → v id = model.read path
  registered : ∀ ⦃id : NodeId⦄ ⦃n : Node⦄ ⦃name : String⦄ ⦃pos : Nat⦄
    ⦃args : List NodeId⦄, g.node? id = some n →
    n.kind = .expression (.registered name pos) args →
    v id = model.operate name (args.map v)

theorem obeys_denote (g : Graph) (model : Model α) : g.Obeys model (g.denote model) where
  constant _ _ _ hn := denote_constant hn
  read _ _ _ _ hn := denote_read hn
  registered _ _ _ _ _ hn := denote_registered hn

omit [Zero α] in
theorem Obeys.earlier {v : NodeId → α} (h : newer.Obeys model v)
    (hext : older.Extends newer) : older.Obeys model v where
  constant _ _ _ hn := h.constant (hext.node? hn)
  read id address node path hn hk hpath := by
    have how : older.Owns address := owns_operand hn (Node.mem_operands hk List.mem_cons_self)
    exact h.read (hext.node? hn) hk ((accessPath?_extends hext how).trans hpath)
  registered _ _ _ _ _ hn := h.registered (hext.node? hn)

end Graph

end DiffGraph
