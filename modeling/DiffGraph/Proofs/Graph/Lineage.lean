import DiffGraph.Proofs.Graph.Interning

/-!
Lineages of addresses: the address itself, the address it is a part of, and so on up to an argument.
A lineage stays within the graph, and a graph that grows leaves the lineages of its nodes as they
are.
-/

set_option autoImplicit false

namespace DiffGraph

open List Option NodeKind

variable {root base part : NodeId}

namespace Graph

variable {g older newer : Graph} {id : NodeId} {n : Node}

theorem lineage_of_base (h : g.node? id = some n)
    (hba : n.kind.base? = some base) : g.lineage id = id :: g.lineage base := by
  rw [lineage]
  split
  next hno =>
    rw [h] at hno
    cases hno
  next found hf =>
    obtain rfl : n = found := some.inj (h.symm.trans hf)
    split
    next hno =>
      rw [hba] at hno
      cases hno
    next other ho =>
      rw [some.inj (hba.symm.trans ho)]

theorem lineage_of_base_none (h : g.node? id = some n) (hba : n.kind.base? = none) :
    g.lineage id = [id] := by
  rw [lineage]
  split
  · rfl
  next found hf =>
    obtain rfl : n = found := some.inj (h.symm.trans hf)
    split
    · rfl
    next other ho =>
      rw [hba] at ho
      cases ho

theorem lineage_eq_cons (how : g.Owns id) : ∃ around, g.lineage id = id :: around := by
  obtain ⟨n, hn⟩ := owns_iff_node?.mp how
  cases hba : n.kind.base? with
  | none => exact ⟨[], lineage_of_base_none hn hba⟩
  | some base => exact ⟨g.lineage base, lineage_of_base hn hba⟩

theorem lineage_ne_nil (how : g.Owns id) : g.lineage id ≠ [] := by
  obtain ⟨around, hlineage⟩ := lineage_eq_cons how
  rw [hlineage]
  exact cons_ne_nil _ _

/-- Statements about the lineage of a node go from the outer address to the parts of it. -/
theorem lineage_induction {motive : NodeId → Prop}
    (root : ∀ {id : NodeId} {n : Node}, g.node? id = some n → n.kind.base? = none → motive id)
    (part : ∀ {id base : NodeId} {n : Node}, g.node? id = some n →
      n.kind.base? = some base → motive base → motive id) (id : NodeId)
    (how : g.Owns id) : motive id := by
  obtain ⟨n, hn⟩ := owns_iff_node?.mp how
  cases hba : n.kind.base? with
  | none => exact root hn hba
  | some base =>
    have hm := base?_mem_operands hba
    have hlt : base.index < id.index := operand_index_lt hn hm
    exact part hn hba (lineage_induction root part base (owns_operand hn hm))
termination_by id.index

theorem lineage_extends (h : older.Extends newer) (how : older.Owns id) :
    newer.lineage id = older.lineage id := by
  refine lineage_induction (motive := fun id ↦ newer.lineage id = older.lineage id) ?_ ?_ id how
  · intro id n hn hba
    rw [lineage_of_base_none hn hba, lineage_of_base_none (h.node? hn) hba]
  · intro id base n hn hba ih
    rw [lineage_of_base hn hba, lineage_of_base (h.node? hn) hba, ih]

theorem owns_of_mem_lineage (how : g.Owns id) (hp : part ∈ g.lineage id) : g.Owns part := by
  revert hp
  refine lineage_induction (motive := fun id ↦ part ∈ g.lineage id → g.Owns part) ?_ ?_ id how
  · intro id n hn hba hp
    rw [lineage_of_base_none hn hba, mem_singleton] at hp
    exact hp ▸ owns_iff_node?.mpr ⟨n, hn⟩
  · intro id base n hn hba ih hp
    rw [lineage_of_base hn hba] at hp
    rcases mem_cons.mp hp with rfl | hp
    · exact owns_iff_node?.mpr ⟨n, hn⟩
    · exact ih hp

/-- All of a lineage but its end are parts. -/
theorem base?_of_mem_dropLast (how : g.Owns id) (hp : part ∈ (g.lineage id).dropLast) :
    ∃ n, g.node? part = some n ∧ n.kind.base?.isSome = true := by
  revert hp
  refine lineage_induction (motive := fun id ↦ part ∈ (g.lineage id).dropLast →
    ∃ n, g.node? part = some n ∧ n.kind.base?.isSome = true) ?_ ?_ id how
  · intro id n hn hba hp
    rw [lineage_of_base_none hn hba] at hp
    exact absurd hp not_mem_nil
  · intro id base n hn hba ih hp
    have hne := lineage_ne_nil (owns_operand hn (base?_mem_operands hba))
    rw [lineage_of_base hn hba, dropLast_cons_of_ne_nil hne] at hp
    rcases mem_cons.mp hp with rfl | hp
    · exact ⟨n, hn, by rw [hba]; rfl⟩
    · exact ih hp

theorem lineage_eq_of_root? (h : g.root? id = some root) :
    g.lineage id = (g.lineage id).dropLast ++ [root] := by
  obtain ⟨parts, hps⟩ := getLast?_eq_some_iff.mp (filter_eq_some_iff.mp h).1
  rw [hps, dropLast_concat]

theorem mem_lineage_of_root? (h : g.root? id = some root) : root ∈ g.lineage id :=
  mem_of_getLast? (filter_eq_some_iff.mp h).1

theorem owns_root? (how : g.Owns id) (h : g.root? id = some root) : g.Owns root :=
  owns_of_mem_lineage how (mem_lineage_of_root? h)

/-- A part belongs to the argument that it is a part of. -/
theorem root?_of_base (h : g.node? id = some n)
    (hba : n.kind.base? = some base) : g.root? id = g.root? base := by
  have hne := lineage_ne_nil (owns_operand h (base?_mem_operands hba))
  rw [root?, root?, lineage_of_base h hba, getLast?_cons_of_ne_nil hne]

theorem root?_of_argument (h : g.node? id = some n) (harg : n.isArgument = true)
    (hba : n.kind.base? = none) : g.root? id = some id := by
  rw [root?, lineage_of_base_none h hba, getLast?_singleton, filter_some, h, any_some, if_pos harg]

theorem root?_extends (h : older.Extends newer) (how : older.Owns id) :
    newer.root? id = older.root? id := by
  unfold root?
  rw [lineage_extends h how]
  cases hla : (older.lineage id).getLast? with
  | none => rfl
  | some root =>
    obtain ⟨n, hn⟩ := owns_iff_node?.mp (owns_of_mem_lineage how (mem_of_getLast? hla))
    simp only [Option.filter, hn, h.node? hn]

end Graph

end DiffGraph
