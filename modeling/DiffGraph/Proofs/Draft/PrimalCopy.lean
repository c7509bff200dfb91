import DiffGraph.Proofs.Draft.Copying
import DiffGraph.Proofs.Draft.Folding
import DiffGraph.Proofs.Draft.Sweeps
import DiffGraph.Proofs.Operator.Uniformity

/-!
An adjoint contains its function. The first writes of an adjoint are copies of the writes of the
function it was made of, in the same order. They stand for the same terms and have the same keys, and
evaluating them yields what evaluating the function yields.
-/

set_option autoImplicit false

namespace DiffGraph

open Stateful List

variable {first second : Draft}

namespace Draft

/-- The arguments of a function are arguments of a draft with copies of its nodes. -/
theorem Copying.sameArguments {src now : Draft} (h : src.Copying now)
    (hsrc : src.Sound) : SameArguments src now := by
  intro name id hlk
  obtain ⟨n, dir, hn, hk, -⟩ := hsrc.arguments (mem_of_lookup hlk)
  exact h.arguments hn hk

/-- The key of a node. -/
def key? (d : Draft) (id : NodeId) : Option UInt64 := (d.graph.node? id).map Node.key

theorem Same.key?_eq {a b : NodeId} (h : Same first second a b)
    (hfst : first.graph.Interned) (hsnd : second.graph.Interned) :
    first.key? a = second.key? b := by
  obtain ⟨n, m, ha, hb, -, -⟩ := h.nodes
  rw [key?, key?, ha, hb, Option.map_some, Option.map_some, hfst.key_eq_digest ha,
    hsnd.key_eq_digest hb, h.term]

theorem map_key?_of_same (hfst : first.graph.Interned)
    (hsnd : second.graph.Interned) {ids ids' : List NodeId}
    (h : List.Forall₂ (Same first second) ids ids') : ids.map first.key? = ids'.map second.key? := by
  induction h with
  | nil => rfl
  | cons hhd _ ih => rw [map_cons, map_cons, ih, hhd.key?_eq hfst hsnd]

/-- The first writes of an adjoint are copies of the writes of its function. -/
theorem Sound.adjoint_copies {p res : Draft} (hpm : p.Sound)
    (hun : p.operators.Uniform) (hnormal : p.Normalized) {owner : Nat}
    {ex : List String} {ts : TypeTable} (h : p.adjoint owner ex = (.ok res, ts)) :
    p.Copying res ∧ List.Forall₂ (Same p res) p.writes (res.writes.take p.writes.length) := by
  obtain ⟨run, rfl⟩ := exists_adjointRun h
  obtain ⟨hcpy, hws⟩ := hpm.ok_of_adjoint_copy hun hnormal
    ((run_bind_of_ok run.declare).trans run.copy)
  have hsts := run.leads hcpy.sound
  have hl := hsts.precedes
  refine ⟨hcpy.later hl (hcpy.sound.steps hsts), ?_⟩
  rw [hws.length_eq, prefix_iff_eq_take.mp hl.writes |>.symm]
  exact hws.imp fun _ _ h ↦ h.later (.refl p) hl

end Draft

end DiffGraph
