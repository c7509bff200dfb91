import DiffGraph.Proofs.Draft.Dependencies

/-!
The part of a graph below a node. Positions are gone through from the node's own down to the first
one; a marked position is collected, and marks the operands of its node if the walk goes on there.
What is collected stands in the order of the graph, so operands come before the nodes that use them.
-/

set_option autoImplicit false

namespace DiffGraph

open List Nat

variable {expand : Node → Bool} {n node : Node} {id : NodeId} {earlier later : List NodeId}

namespace Graph

section Marks

theorem size_mark (marks : Array Bool) (args : List NodeId) :
    (mark marks args).size = marks.size := by
  induction args generalizing marks with
  | nil => rfl
  | cons arg rest ih => exact (ih _).trans (Array.size_setIfInBounds)

theorem getD_mark {marks : Array Bool} {args : List NodeId} {position : Nat}
    (hpos : position < marks.size) :
    (mark marks args).getD position false = true ↔
      marks.getD position false = true ∨ ∃ arg ∈ args, arg.index = position := by
  induction args generalizing marks with
  | nil => exact ⟨.inl, fun h ↦ h.elim (fun h ↦ h) fun ⟨_, h, _⟩ ↦ absurd h not_mem_nil⟩
  | cons arg rest ih =>
    change (mark (marks.setIfInBounds arg.index true) rest).getD position false = true ↔ _
    rw [ih (by rwa [Array.size_setIfInBounds])]
    have hset : (marks.setIfInBounds arg.index true).getD position false = true ↔
        marks.getD position false = true ∨ arg.index = position := by
      simp only [Array.getD_eq_getD_getElem?, Array.getElem?_setIfInBounds]
      by_cases hsame : arg.index = position
      · simp [hsame, hpos]
      · simp [hsame]
    rw [hset, exists_mem_cons_iff, or_assoc]

end Marks

/-- The walk goes on from a node to its operands. -/
def Expands (g : Graph) (expand : Node → Bool) (user arg : NodeId) : Prop :=
  ∃ n, g.node? user = some n ∧ expand n = true ∧ arg ∈ n.operands

/-- The state of a walk that has gone through all positions from some bound on: marks below the
bound, and the nodes that were collected from it on. -/
structure Collects (g : Graph) (expand : Node → Bool) (root : NodeId) (bound : Nat)
    (marks : Array Bool) (m : List NodeId) : Prop where
  owns_root : g.Owns root
  size : bound ≤ marks.size
  owned : ∀ id ∈ m, g.Owns id
  above : ∀ id ∈ m, bound ≤ id.index
  sorted : m.Pairwise fun first second ↦ first.index < second.index
  reached : ∀ id ∈ m, Relation.ReflTransGen (g.Expands expand) root id
  marked : ∀ pos < bound, marks.getD pos false = true →
    g.Owns ⟨g.owner, pos⟩ ∧
      Relation.ReflTransGen (g.Expands expand) root ⟨g.owner, pos⟩
  closed : ∀ id ∈ m, ∀ n, g.node? id = some n → expand n = true →
    ∀ arg ∈ n.operands,
      arg ∈ m ∨ arg.index < bound ∧ marks.getD arg.index false = true
  rooted : root ∈ m ∨ root.index < bound ∧ marks.getD root.index false = true

section Walk

variable {g : Graph} {root : NodeId} {pos position : Nat} {marks : Array Bool} {m : List NodeId}

theorem collects_start (how : g.Owns root) : Collects g expand root (root.index + 1)
      ((Array.replicate (root.index + 1) false).setIfInBounds root.index true) [] := by
  refine ⟨how, by simp, forall_mem_nil _, forall_mem_nil _, .nil, forall_mem_nil _,
    fun position hpos hmarked ↦ ?_,
    forall_mem_nil _, .inr ⟨lt_succ_self _, by simp [Array.getD]⟩⟩
  have hsame : root.index = position := by
    by_contra ho
    simp [Array.getD_eq_getD_getElem?, ho, hpos] at hmarked
  obtain rfl : root = ⟨g.owner, position⟩ := by
    rw [← hsame, ← how.1]
  exact ⟨how, .refl⟩

/-- A position that is not marked is passed over. -/
theorem Collects.skip (h : Collects g expand root (pos + 1) marks m)
    (hmark : marks.getD pos false ≠ true) :
    Collects g expand root pos marks m where
  owns_root := h.owns_root
  size := Nat.le_of_succ_le h.size
  owned := h.owned
  above id hid := Nat.le_of_succ_le (h.above id hid)
  sorted := h.sorted
  reached := h.reached
  marked other ho := h.marked other (lt_succ_of_lt ho)
  closed id hid node hn hexpand operand hop := by
    rcases h.closed id hid node hn hexpand operand hop with hf | ⟨hlt, hmarked⟩
    · exact .inl hf
    · refine .inr ⟨Nat.lt_of_le_of_ne (Nat.le_of_lt_succ hlt) ?_, hmarked⟩
      exact fun heq ↦ hmark (heq ▸ hmarked)
  rooted := by
    rcases h.rooted with hf | ⟨hlt, hmarked⟩
    · exact .inl hf
    · refine .inr ⟨Nat.lt_of_le_of_ne (Nat.le_of_lt_succ hlt) ?_, hmarked⟩
      exact fun heq ↦ hmark (heq ▸ hmarked)

/-- The marks after a node was collected. -/
def marksAfter (g : Graph) (expand : Node → Bool) (pos : Nat) (marks : Array Bool) :
    Array Bool :=
  match g.nodes[pos]? with
  | some n => if expand n then mark marks n.operands else marks
  | none => marks

theorem getD_marksAfter (hn : g.nodes[pos]? = some n) {other : Nat} (ho : other < marks.size) :
    (g.marksAfter expand pos marks).getD other false = true ↔ marks.getD other false = true ∨
        expand n = true ∧ ∃ arg ∈ n.operands, arg.index = other := by
  rw [marksAfter, hn]
  dsimp only
  by_cases hexpand : expand n = true
  · rw [if_pos hexpand, getD_mark ho, and_iff_right hexpand]
  · rw [if_neg hexpand]
    constructor
    · exact .inl
    · rintro (h | ⟨h, -⟩)
      · exact h
      · exact absurd h hexpand

theorem size_marksAfter : (g.marksAfter expand pos marks).size = marks.size := by
  unfold marksAfter
  split
  · split
    · exact size_mark _ _
    · rfl
  · rfl

/-- A marked position is collected, and marks the operands of its node. -/
theorem Collects.take (h : Collects g expand root (pos + 1) marks m)
    (hmark : marks.getD pos false = true) :
    Collects g expand root pos (g.marksAfter expand pos marks)
      (⟨g.owner, pos⟩ :: m) := by
  obtain ⟨how, hrch⟩ := h.marked pos (lt_succ_self _) hmark
  obtain ⟨node, hn⟩ := owns_iff_node?.mp how
  have hsd : g.nodes[pos]? = some node := by rwa [node?, if_pos rfl] at hn
  have hbl {other : Nat} (ho : other < pos + 1) : other < marks.size := Nat.lt_of_lt_of_le ho h.size
  have hkeep {operand : NodeId} (hcase : operand ∈ m ∨
      operand.index < pos + 1 ∧ marks.getD operand.index false = true)
      (hwr : operand.owner = g.owner) :
      operand ∈ (⟨g.owner, pos⟩ :: m : List NodeId) ∨ operand.index < pos ∧
        (g.marksAfter expand pos marks).getD operand.index false = true := by
    rcases hcase with hf | ⟨hlt, hmarked⟩
    · exact .inl (mem_cons_of_mem _ hf)
    · rcases Nat.lt_or_eq_of_le (Nat.le_of_lt_succ hlt) with hlt' | heq
      · exact .inr ⟨hlt', (getD_marksAfter hsd (hbl hlt)).mpr (.inl hmarked)⟩
      · left
        obtain ⟨owner, index⟩ := operand
        subst hwr heq
        exact mem_cons_self
  refine ⟨h.owns_root, ?_, ?_, ?_, ?_, ?_, fun other ho hmarked ↦ ?_, ?_, ?_⟩
  · rw [size_marksAfter]
    exact Nat.le_of_succ_le h.size
  · exact forall_mem_cons.mpr ⟨how, h.owned⟩
  · exact forall_mem_cons.mpr ⟨Nat.le_refl _, fun id hid ↦ Nat.le_of_succ_le (h.above id hid)⟩
  · exact pairwise_cons.mpr ⟨fun id hid ↦ h.above id hid, h.sorted⟩
  · exact forall_mem_cons.mpr ⟨hrch, h.reached⟩
  · rcases (getD_marksAfter hsd (hbl (lt_succ_of_lt ho))).mp hmarked with
      hold | ⟨hexpand, operand, hop, rfl⟩
    · exact h.marked other (lt_succ_of_lt ho) hold
    · have hoperandOwns := owns_operand hn hop
      have heq : (⟨g.owner, operand.index⟩ : NodeId) = operand := by rw [← hoperandOwns.1]
      rw [heq]
      exact ⟨hoperandOwns, hrch.tail ⟨node, hn, hexpand, hop⟩⟩
  · refine forall_mem_cons.mpr ⟨fun found' hf' hexpand operand hop ↦ .inr ?_,
      fun id hid found' hf' hexpand operand hop ↦ ?_⟩
    · obtain rfl : node = found' := Option.some.inj (hn.symm.trans hf')
      have hlt := operand_index_lt hn hop
      refine ⟨hlt, (getD_marksAfter hsd (hbl (lt_succ_of_lt hlt))).mpr ?_⟩
      exact .inr ⟨hexpand, operand, hop, rfl⟩
    · exact hkeep (h.closed id hid found' hf' hexpand operand hop) (owns_operand hf' hop).1
  · exact hkeep h.rooted h.owns_root.1

theorem Collects.run (h : Collects g expand root pos marks m) :
    ∃ marks', Collects g expand root 0 marks'
      (g.collect expand pos marks m) := by
  induction pos generalizing marks m with
  | zero => exact ⟨marks, h⟩
  | succ pos ih =>
    unfold collect
    split
    next hmark => exact ih (h.take hmark)
    next hmark => exact ih (h.skip hmark)

theorem collects_closure (expand : Node → Bool) (how : g.Owns root) :
    ∃ marks, Collects g expand root 0 marks (g.closure expand root) :=
  (collects_start how).run

end Walk

section Closure

variable {g : Graph} {root : NodeId}

theorem owns_of_mem_closure (how : g.Owns root) (h : id ∈ g.closure expand root) : g.Owns id := by
  obtain ⟨marks, hcollects⟩ := collects_closure expand how
  exact hcollects.owned id h

/-- A closure lists nodes in the order in which they were stored. -/
theorem sorted_closure (expand : Node → Bool) (how : g.Owns root) :
    (g.closure expand root).Pairwise fun earlier later ↦ earlier.index < later.index := by
  obtain ⟨marks, hcollects⟩ := collects_closure expand how
  exact hcollects.sorted

theorem nodup_closure (expand : Node → Bool) (how : g.Owns root) :
    (g.closure expand root).Nodup := by
  obtain ⟨marks, hcollects⟩ := collects_closure expand how
  refine hcollects.sorted.imp fun hlt heq ↦ ?_
  rw [heq] at hlt
  exact absurd hlt (Nat.lt_irrefl _)

/-- A closure has what the walk reaches, and nothing else. -/
theorem mem_closure_iff (how : g.Owns root) : id ∈ g.closure expand root ↔
    Relation.ReflTransGen (g.Expands expand) root id := by
  obtain ⟨marks, hcollects⟩ := collects_closure expand how
  refine ⟨hcollects.reached id, fun hpath ↦ ?_⟩
  induction hpath with
  | refl => exact hcollects.rooted.resolve_right fun h ↦ not_lt_zero _ h.1
  | tail _ hstep ih =>
    obtain ⟨n, hn, hexpand, hop⟩ := hstep
    exact (hcollects.closed _ ih n hn hexpand _ hop).resolve_right fun h ↦ not_lt_zero _ h.1

/-- What holds of the node and is passed on along the walk holds of all that is collected. -/
theorem closure_induction {motive : NodeId → Prop} (how : g.Owns root) (base : motive root)
    (step : ∀ {user arg : NodeId} {n : Node}, motive user → g.node? user = some n → expand n = true → arg ∈ n.operands → motive arg)
    (h : id ∈ g.closure expand root) : motive id := by
  induction (mem_closure_iff how).mp h with
  | refl => exact base
  | tail hpath hstep ih =>
    obtain ⟨n, hn, hexpand, hop⟩ := hstep
    exact step (ih ((mem_closure_iff how).mpr hpath)) hn hexpand hop

theorem root_mem_closure (expand : Node → Bool) (how : g.Owns root) :
    root ∈ g.closure expand root := (mem_closure_iff how).mpr .refl

/-- Nothing is reached from a node that is not expanded. -/
theorem closure_eq_singleton (hn : g.node? root = some n) (hexpand : expand n = false) :
    g.closure expand root = [root] := by
  have how := owns_iff_node?.mpr ⟨n, hn⟩
  have hall : ∀ id ∈ g.closure expand root, id = root := fun id hid ↦
    closure_induction (motive := (· = root)) how rfl (by
      rintro user arg m rfl hf hexpanded -
      cases hn.symm.trans hf
      cases hexpand.symm.trans hexpanded) hid
  have hperm := (perm_ext_iff_of_nodup (nodup_closure expand how)
    (pairwise_singleton _ root)).mpr fun id ↦ by
      rw [mem_singleton]
      constructor
      · exact hall id
      · rintro rfl
        exact root_mem_closure expand how
  exact perm_singleton.mp hperm

/-- What stands in a closure and comes before a node stands before it. -/
theorem mem_earlier_of_lt (how : g.Owns root) {other : NodeId}
    (hord : g.closure expand root = earlier ++ id :: later) (ho : other ∈ g.closure expand root)
    (hlt : other.index < id.index) : other ∈ earlier := by
  have hsorted := sorted_closure expand how
  rw [hord] at ho hsorted
  rcases mem_append.mp ho with hear | hl
  · exact hear
  · rcases mem_cons.mp hl with rfl | hl
    · omega
    · have := rel_of_pairwise_cons (pairwise_append.mp hsorted).2.1 hl
      omega

/-- The operands of a node that the walk goes on from stand before the node. -/
theorem operand_mem_closure (how : g.Owns root)
    (hord : g.closure expand root = earlier ++ id :: later) (hn : g.node? id = some n)
    (hexpand : expand n = true) {arg : NodeId} (hop : arg ∈ n.operands) : arg ∈ earlier := by
  have hid : id ∈ g.closure expand root := hord ▸ mem_append_right _ mem_cons_self
  exact mem_earlier_of_lt how hord
    ((mem_closure_iff how).mpr (((mem_closure_iff how).mp hid).tail ⟨n, hn, hexpand, hop⟩))
    (operand_index_lt hn hop)

end Closure

end Graph

end DiffGraph
