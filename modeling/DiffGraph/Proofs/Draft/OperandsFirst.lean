import DiffGraph.Proofs.Draft.Memoization

/-!
Operands first. The part of a graph below a node is listed in the order of the graph, so every operand
stands before the nodes that use it. A differentiation goes through this list: when the turn of a node
comes, the derivatives of its operands are known, and whoever asks for one of them, the walk itself or
a rule in the middle of its work, is given it without anything being built
(`Reachable.operands_first`).
-/

set_option autoImplicit false

namespace DiffGraph

open List Stateful Build

variable {d d' draft : Draft} {address id : NodeId}

namespace Draft

/-- A walk that has come through a list of nodes knows the derivatives of all of them. -/
theorem knowsAll_of_run_forM {done parts : List NodeId} (haddr : d.graph.Owns address)
    (hs : d.Sound) (hder : d.Derived) (hdone : Setting.KnowsAll d address done)
    (h : (parts.forM fun part ↦ do let _ ← differentiateOnce address part : Build Unit).run d =
      (.ok ⟨⟩, d')) : d.Precedes d' ∧ Setting.KnowsAll d' address (done ++ parts) := by
  induction parts generalizing d done with
  | nil =>
    obtain ⟨-, rfl⟩ := ok_of_run_pure h
    exact ⟨.refl _, (append_nil done).symm ▸ hdone⟩
  | cons part parts ih =>
    obtain ⟨s, hstep, hrest⟩ := ok_of_run_forM_cons h
    obtain ⟨deriv, s', honce, hret⟩ := ok_of_run_bind hstep
    obtain ⟨-, rfl⟩ := ok_of_run_pure hret
    obtain ⟨⟨hevolves, hsound, hderived⟩, -⟩ :=
      differentiateOnce_ponders address part d haddr hs hder
    rw [honce] at hevolves hsound hderived
    have hprecedes := hevolves.precedes
    obtain ⟨hknown, hkept⟩ := known_of_run_differentiateOnce hs honce
    have hnow : Setting.KnowsAll s address (done ++ [part]) := forall_mem_append.mpr
      ⟨fun other ho ↦ (hdone other ho).imp fun _ hf ↦ hkept hf,
        forall_mem_singleton.mpr ⟨deriv, hknown⟩⟩
    obtain ⟨hlater, hall⟩ := ih (hprecedes.graph.owns haddr) hsound hderived hnow hrest
    exact ⟨hprecedes.trans hlater, append_cons done part parts ▸ hall⟩

theorem closure_sine : sineDraft.graph.closure Node.isComputed ⟨0, 2⟩ = [⟨0, 1⟩, ⟨0, 2⟩] := by cbv

theorem exists_run_sine : ∃ before, (([⟨0, 1⟩] : List NodeId).forM fun part ↦ do
    let _ ← differentiateOnce ⟨0, 0⟩ part : Build Unit).run sineDraft = (.ok ⟨⟩, before) :=
  ⟨_, Prod.ext (by cbv) rfl⟩

end Draft

end DiffGraph
