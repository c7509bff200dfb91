import DiffGraph.Proofs.Draft.Copying
import DiffGraph.Proofs.Draft.Faults
import DiffGraph.Proofs.Operator.Uniformity

/-!
Expressions are fixed points of simplification. An expression that is stored is neither evaluated nor
replaced when it is asked for again: its operator, applied to its operands, is found as the node that
is there, and the draft stays as it is (`Draft.Reachable.rebuild_self`).

Replacements have to be allowed for this. They are, as no operation forms an expression where they are
not (`Draft.Reachable.replacementLimit_pos`).
-/

set_option autoImplicit false

namespace DiffGraph

open Stateful Build

/-- Any failure is allowed, so that only the limit matters. -/
def Guard.lenient (limit : Nat) (operators : Registry) : Guard where
  fault _ := True
  limit := limit
  operators := operators
  basic _ _ := trivial
  rules _ _ _ _ _ := Plan.failsWithin_any _
  enough := .inl fun _ _ ↦ trivial

theorem Guard.lenient_covers (limit : Nat) (operators : Registry) :
    (lenient limit operators).Covers :=
  ⟨fun ov _ ↦ ov.failsWithin_any, fun _ ↦ trivial⟩

namespace Draft

variable {d draft : Draft}

theorem Reachable.guarded (h : d.Reachable) :
    d.Guarded (.lenient d.options.replacementLimit d.operators) := by
  induction h with
  | new owner name operators ts options => exact guarded_new owner name ts rfl
  | operate x _ ih =>
    have haf := (ih.operate (Guard.lenient_covers _ _) x).1
    rw [haf.limit_eq, haf.operators_eq]
    exact haf
  | share _ _ ih => exact ih.of_same rfl rfl rfl
  | @adjoint p adjoint owner ex ts _ hadj ih =>
    obtain ⟨sw, hr, rfl⟩ := ok_of_adjoint hadj
    have hla := (ih.adjoint (Guard.lenient_covers _ _) owner ex).1 hr
    rw [hla.limit_eq, hla.operators_eq]
    exact hla

/-- An expression was formed only if replacements are allowed. -/
theorem Reachable.replacementLimit_pos (h : d.Reachable) {id : NodeId} {n : Node}
    (hn : d.graph.node? id = some n) {op : Operator} {args : List NodeId}
    (hk : n.kind = .expression op args) : 0 < d.options.replacementLimit :=
  Nat.pos_of_ne_zero fun hz ↦ h.guarded.bare hz hn hk

/-- Stored expressions are fixed points of simplification. Asking for the operator of an expression on
its operands yields the expression and leaves the draft as it is. -/
theorem Reachable.rebuild_self (hdraft : draft.Reachable) (hfixed : draft.types.Fixed)
    (huniform : draft.operators.Uniform) {id : NodeId} {node : Node}
    (hnode : draft.graph.node? id = some node) {operator : Operator} {operands : List NodeId}
    (hkind : node.kind = .expression operator operands) :
    (Build.rebuild operator node.type operands).run draft = (.ok id, draft) := by
  have hsound := hdraft.sound
  have howned : ∀ operand ∈ operands, draft.graph.Owns operand :=
    fun _ hoperand ↦ Graph.owns_operand hnode (by rwa [Node.operands, hkind])
  have hsame : List.Forall₂ (Same draft draft) operands operands :=
    List.forall₂_same.mpr fun operand hoperand ↦ (Precedes.refl draft).same (howned operand hoperand)
  rw [hsound.run_rebuild_eq_intern hsound rfl hsame huniform hnode hkind rfl hfixed
    (hdraft.replacementLimit_pos hnode hkind), ← hkind]
  exact run_intern_self hsound hnode

/-- The maximum of a number and itself, where the number is the minimum of the input and itself, is
found again. -/
theorem Reachable.rebuild_self_minMax : ∃ draft : Draft, draft.Reachable ∧ draft.types.Fixed ∧
    draft.operators.Uniform ∧
    (Build.rebuild (.registered "max" 0) "double" [⟨0, 3⟩, ⟨0, 3⟩]).run draft =
      (.ok ⟨0, 4⟩, draft) := by
  obtain ⟨draft, hdraft, hlists⟩ := exists_minMax
  have hfixed : draft.types.Fixed := hlists.types ▸ TypeTable.Concrete.scalars.fixed
  have huniform : draft.operators.Uniform := hlists.operators ▸ Registry.standard_uniform
  obtain ⟨node, hnode, htype, hkind, -⟩ := hlists.node?_blank 4 rfl
  have hself := hdraft.rebuild_self hfixed huniform hnode hkind
  rw [htype] at hself
  exact ⟨draft, hdraft, hfixed, huniform, hself⟩

end Draft

end DiffGraph
