import Mathlib.Tactic.Ring
import DiffGraph.Proofs.Draft.ReverseMode

/-!
Gradients of writes that are left out. Of all writes to an address the last one decides what the
address holds, but each of them passes gradients on. If a write is left out of a function of numbers,
the gradients that its adjoint writes lose the share of this write, also where the write was
overwritten. Here writes may go to one address, so constants are asked to be normalized: then the
copies of different writes are different (`AdjointRun.mirrored_of_normalized`).
-/

set_option autoImplicit false

namespace DiffGraph

open Stateful List

namespace Draft

/-- A function of numbers over the standard operators, with constants that are normalized. -/
structure IsNumerical (d : Draft) : Prop where
  reachable : d.Reachable
  operators : d.operators = .standard
  numerical : d.Numerical
  normalized : d.Normalized

section Shares

variable {F : Type} [Field F] {I : Interpretation F} {p primal shorter adjoint adjoint' : Draft}
  {owner owner' : Nat} {ts types types' : TypeTable} {ex excluded : List String} {path : AccessPath}

theorem IsNumerical.outputAt_adjoint (h : p.IsNumerical)
    (hadj : p.adjoint owner ex = (.ok adjoint, ts)) (hex : I.Exact adjoint Precision.names)
    {t : String} (harg : (path.argument, t) ∈ p.argumentsOf .input ++ p.argumentsOf .update)
    (hincluded : path.argument ∉ ex) :
    adjoint.outputAt I.model (path.within (p.options.gradientName path.argument)) =
      (p.writes.map (p.pullback I ex path)).sum := by
  have hs := h.reachable.sound
  obtain ⟨run, rfl⟩ := exists_adjointRun hadj
  exact (run.outputAt hs I hex (run.mirrored_of_normalized hs h.operators h.numerical
    h.normalized) harg hincluded).2

/-- Writes that stand for the same term contribute the same. -/
theorem IsNumerical.pullback_eq (h : shorter.IsNumerical) (hpm : p.Sound)
    (hopts : shorter.options = p.options) (hts : shorter.types.Extends p.types)
    {id other : NodeId} (hid : id ∈ shorter.writes) (hsame : Same shorter p id other) :
    shorter.pullback I ex path id = p.pullback I ex path other := by
  have hs := h.reachable.sound
  obtain ⟨n, addr, value, hn, hk⟩ := hs.writes hid
  obtain ⟨prec, way, -, hpl, htm⟩ := (hs.numeric_write h.operators h.numerical hn hk).of_write hn hk
  obtain ⟨m, hf⟩ := Graph.owns_iff_node?.mp hsame.right
  have hcontents := (hsame.contents hn hf).2
  rw [hk] at hcontents
  generalize hfk : m.kind = kind at hcontents
  cases hcontents with
  | @write _ addr' _ v' haddr hv =>
    have hslope : I.tangent path p.graph v' = I.tangent path shorter.graph value :=
      congrArg Prod.snd (hv.term_denote hs hpm hts htm).2
    rw [shorter.pullback_of_write I ex hn hk hpl.accessPath?, p.pullback_of_write I ex hf hfk
        (haddr.place hs hpm hts hpl).accessPath?, hslope, incoming, incoming,
      hopts]

end Shares

section Sample

variable {draft : Draft}

/-- A function with an output and an input that writes nothing. -/
def silentDraft : Draft :=
  blank.requested [.declare "y" "double" .output, .declare "x" "double" .input]

theorem lists_silent :
    blank.Lists silentDraft (identity.take 2) [("y", ⟨0, 0⟩), ("x", ⟨0, 1⟩)] [] :=
  .of_listing (reachable_requested _) (by cbv)

theorem numerical_silent : silentDraft.Numerical := by
  have hno {id : NodeId} (hrch : silentDraft.graph.Reaches silentDraft.writes id) : False := by
    obtain ⟨root, hrt, -⟩ := hrch
    rw [lists_silent.writes] at hrt
    exact absurd hrt not_mem_nil
  exact ⟨fun _ _ _ _ hrch ↦ (hno hrch).elim,
    fun _ _ _ _ _ hrch ↦ (hno hrch).elim, fun _ _ _ hrch ↦ (hno hrch).elim,
    fun _ _ _ hrch ↦ (hno hrch).elim, fun _ _ _ hrch ↦ (hno hrch).elim⟩

/-- Its adjoint has arguments only. -/
theorem exists_adjoint_silent : ∃ res, silentDraft.adjoint 1 [] = (.ok res, res.types) ∧
    blankAdjoint.Lists res (adjointIdentity.take 4) argumentsAdjoint [] :=
  exists_adjoint_of_listing lists_silent.reachable (by cbv)

end Sample

end Draft

end DiffGraph
