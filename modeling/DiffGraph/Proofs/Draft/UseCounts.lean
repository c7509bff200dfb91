import Mathlib.Data.Set.Card
import DiffGraph.Proofs.Draft.Listing
import DiffGraph.Proofs.Draft.Rendering

/-!
The analysis of dependencies counts exactly. An operand position is a node together with a place in
the list of its operands; the positions that hold a node, over all nodes that are reached from the
writes, are as many as the uses that the analysis counts, and the nodes at these positions are the
users that it lists.
-/

set_option autoImplicit false

namespace DiffGraph

open List Dependencies

variable {id user : NodeId}

namespace Dependencies

/-- The operand positions of the given nodes that hold a node. -/
def positions (g : Graph) (users : List NodeId) (id : NodeId) : List (NodeId × Nat) :=
  users.flatMap fun user ↦ ((g.operands user).idxsOf id).map fun place ↦ (user, place)

section Positions

variable {g graph : Graph} {users : List NodeId}

theorem mem_positions {pos : NodeId × Nat} : pos ∈ positions g users id ↔
      pos.1 ∈ users ∧ (g.operands pos.1)[pos.2]? = some id := by
  obtain ⟨user, place⟩ := pos
  simp only [positions, mem_flatMap, mem_map, Prod.mk.injEq,
    mem_idxsOf_iff_exists_getElem_pos, beq_iff_eq, getElem?_eq_some_iff]
  constructor
  · rintro ⟨other, ho, index, hix, rfl, rfl⟩
    exact ⟨ho, hix⟩
  · exact fun h ↦ ⟨user, h.1, place, h.2, rfl, rfl⟩

theorem nodup_positions (h : users.Nodup) : (positions g users id).Nodup := by
  refine nodup_flatMap.mpr ⟨fun user _ ↦ ?_, h.imp fun {first second} hne ↦ ?_⟩
  · exact nodup_idxsOf.map fun _ _ heq ↦ congrArg Prod.snd heq
  · rw [Function.onFun, disjoint_left]
    intro pos hfst hsnd
    obtain ⟨_, -, rfl⟩ := mem_map.mp hfst
    obtain ⟨_, -, heq⟩ := mem_map.mp hsnd
    exact hne (congrArg Prod.fst heq).symm

/-- The users of a node are the nodes at the positions that hold it. -/
theorem usersAmong_eq_map_positions :
    usersAmong g users id = (positions g users id).map Prod.fst := by
  rw [usersAmong, positions, map_flatMap]
  refine flatMap_congr fun user _ ↦ ?_
  have hlen : ((g.operands user).idxsOf id).length = (g.operands user).count id := length_idxsOf
  rw [map_map, map_const', ← count_eq_length_filter, ← hlen]
  exact map_const'.symm

/-- Each of the given nodes is a user as often as it has the node as an operand. -/
theorem count_usersAmong (h : users.Nodup) (huser : user ∈ users) :
    (usersAmong g users id).count user = (g.operands user).count id := by
  induction users with
  | nil => cases huser
  | cons first users ih =>
    obtain ⟨hfst, hrs⟩ := nodup_cons.mp h
    have hos : first ∉ usersAmong g users id := by
      rw [usersAmong_eq_map_positions]
      intro hm
      obtain ⟨pos, hpos, rfl⟩ := mem_map.mp hm
      exact hfst (mem_positions.mp hpos).1
    rw [usersAmong, flatMap_cons, count_append, map_const', count_replicate,
      ← count_eq_length_filter]
    rcases mem_cons.mp huser with rfl | huser
    · rw [if_pos (beq_self_eq_true _)]
      exact Nat.add_eq_left.mpr (count_eq_zero.mpr hos)
    · have hne : first ≠ user := fun heq ↦ hfst (heq ▸ huser)
      rw [if_neg (fun heq ↦ hne (beq_iff_eq.mp heq)), Nat.zero_add]
      exact ih hrs huser

end Positions

section Exact

variable (g graph : Graph) (roots : List NodeId)

theorem mem_discovered_iff : id ∈ (of g roots).discovered.toList ↔ g.Reaches roots id :=
  (discovered_perm_inOrder g roots).mem_iff.trans (mem_inOrder_iff g roots)

/-- Operands are recorded of the nodes that are reached. -/
theorem operands_eq_some_iff {args : List NodeId} : (of g roots).operands[id]? = some args ↔
      g.Reaches roots id ∧ args = g.operands id := by
  have hwalk := walk_of g roots
  rw [← mem_discovered_iff, ← hwalk.entered_iff]
  constructor
  · intro h
    exact ⟨Std.HashMap.contains_eq_isSome_getElem?.trans (by rw [h]; rfl), hwalk.listed id _ h⟩
  · rintro ⟨hentered, rfl⟩
    rw [Std.HashMap.contains_eq_isSome_getElem?] at hentered
    obtain ⟨k, hkn⟩ := Option.isSome_iff_exists.mp hentered
    rw [hkn, hwalk.listed id k hkn]

theorem mem_usersOf (h : user ∈ (of g roots).usersOf id) : g.Reaches roots user := by
  rw [← Array.mem_toList_iff, (walk_of g roots).users, usersAmong_eq_map_positions] at h
  obtain ⟨pos, hpos, rfl⟩ := mem_map.mp h
  exact (mem_discovered_iff g roots).mp (mem_positions.mp hpos).1

theorem count_usersOf (id : NodeId) (h : g.Reaches roots user) :
    ((of g roots).usersOf id).toList.count user = (g.operands user).count id := by
  rw [(walk_of g roots).users]
  exact count_usersAmong (walk_of g roots).nodup ((mem_discovered_iff g roots).mpr h)

/-- A node is used as often as there are operand positions that hold it. -/
theorem encard_positions (id : NodeId) : {pos : NodeId × Nat | graph.Reaches roots pos.1 ∧
      (graph.operands pos.1)[pos.2]? = some id}.encard =
      (of graph roots).useCount id := by
  have hset : {pos : NodeId × Nat | graph.Reaches roots pos.1 ∧
      (graph.operands pos.1)[pos.2]? = some id} =
      (positions graph (of graph roots).discovered.toList id).toFinset := by
    ext pos
    rw [Set.mem_ofPred_eq, coe_toFinset, Set.mem_ofPred_eq, mem_positions, mem_discovered_iff]
  rw [hset, Set.encard_coe_eq_coe_finsetCard,
    toFinset_card_of_nodup (nodup_positions (walk_of graph roots).nodup), useCount,
    ← Array.length_toList, (walk_of graph roots).users, usersAmong_eq_map_positions,
    length_map]

end Exact

end Dependencies

namespace Draft

/-- The analysis of what the writes depend on is exact. It records the operands of the nodes that
are reached from the writes and of no others, and puts these nodes in order, each of them once and
after its operands, the writes as they were recorded. A node is used as often as operand positions
hold it, and its users are the nodes at these positions. -/
theorem Reachable.dependencies_exact {draft : Draft} (hdraft : draft.Reachable) :
    (∀ id operands, draft.dependencies.operands[id]? = some operands ↔
      draft.graph.Reaches draft.writes id ∧
        ∃ node, draft.graph.node? id = some node ∧ node.operands = operands) ∧
    (∀ id, id ∈ draft.dependencies.inOrder ↔ draft.graph.Reaches draft.writes id) ∧
    draft.dependencies.inOrder.toList.Nodup ∧
    (∀ earlier id later, draft.dependencies.inOrder.toList = earlier ++ id :: later →
      ∀ operand ∈ draft.graph.operands id, operand ∈ earlier) ∧
    (draft.dependencies.inOrder.toList.filter fun id ↦
      (draft.graph.node? id).any Node.isWrite) = draft.writes ∧
    (∀ id, {position : NodeId × Nat | draft.graph.Reaches draft.writes position.1 ∧
      (draft.graph.operands position.1)[position.2]? = some id}.encard =
        draft.dependencies.useCount id) ∧
    (∀ id user, draft.graph.Reaches draft.writes user →
      (draft.dependencies.usersOf id).toList.count user =
        (draft.graph.operands user).count id) ∧
    ∀ id, ∀ user ∈ draft.dependencies.usersOf id, draft.graph.Reaches draft.writes user := by
  have hsound := hdraft.sound
  refine ⟨fun id operands ↦ ?_, fun id ↦ ?_, nodup_inOrder _ _,
    fun _ _ _ h ↦ operands_inOrder _ _ h, hsound.filter_order,
    encard_positions _ _, fun id _ h ↦ count_usersOf _ _ id h,
    fun _ _ h ↦ mem_usersOf _ _ h⟩
  · rw [dependencies, operands_eq_some_iff]
    refine and_congr_right fun hreaches ↦ ?_
    obtain ⟨node, hnode⟩ := Graph.owns_iff_node?.mp (hsound.owns_of_reaches hreaches)
    rw [Graph.operands_of_node? hnode]
    refine ⟨fun h ↦ ⟨node, hnode, h.symm⟩, fun ⟨other, hother, h⟩ ↦ ?_⟩
    cases hnode.symm.trans hother
    exact h.symm
  · rw [← Array.mem_toList_iff]
    exact mem_inOrder_iff _ _

/-- In a function that writes the maximum of a number and itself, the number is at two operand
positions, and the maximum is its user twice. -/
theorem useCount_minMax : ∃ draft : Draft, draft.Reachable ∧
    draft.graph.Reaches draft.writes ⟨0, 4⟩ ∧ draft.graph.operands ⟨0, 4⟩ = [⟨0, 3⟩, ⟨0, 3⟩] ∧
    (draft.dependencies.usersOf ⟨0, 3⟩).toList.count ⟨0, 4⟩ = 2 := by
  obtain ⟨draft, hdraft, hlists⟩ := exists_minMax
  obtain ⟨write, hwrite, -, hwriteKind, -⟩ := hlists.node?_blank 5 rfl
  obtain ⟨maximum, hmaximum, -, hkind, -⟩ := hlists.node?_blank 4 rfl
  have hoperands : draft.graph.operands ⟨0, 4⟩ = [⟨0, 3⟩, ⟨0, 3⟩] := by
    rw [Graph.operands_of_node? hmaximum, Node.operands, hkind]
    rfl
  have hreaches : draft.graph.Reaches draft.writes ⟨0, 4⟩ := by
    refine .operand (.root (hlists.writes.symm ▸ List.mem_singleton_self _)) ?_
    rw [Graph.operands_of_node? hwrite, Node.operands, hwriteKind]
    exact List.mem_cons_of_mem _ List.mem_cons_self
  obtain ⟨-, -, -, -, -, -, husers, -⟩ := hdraft.dependencies_exact
  refine ⟨draft, hdraft, hreaches, hoperands, (husers _ _ hreaches).trans ?_⟩
  rw [hoperands]
  rfl

end Draft

end DiffGraph
