import DiffGraph.Proofs.Draft.Simplification
import DiffGraph.Proofs.Draft.Sweeps
import DiffGraph.Proofs.Operator.Uniformity

/-!
Construction depends on terms only. Two functions with the same operators, types and options may
have been built in different orders and hold different things besides; a request that names the same
terms in both has the same outcome in both.

The operators can be any, as long as each is replaced by a standard rule or by one that is described
by a condition and a formula. A rule that is a piece of code could look at the positions of nodes.
-/

set_option autoImplicit false

namespace DiffGraph

/-- Operators that are replaced, if at all, the way a standard operator is or the way a description
says. How they are rendered, evaluated and differentiated does not matter. -/
def Registry.Described (registry : Registry) : Prop :=
  ∀ ov ∈ registry.overloads, ov.rules.replace = none ∨
    (∃ standard ∈ Registry.standard.overloads,
      ov.rules.replace = standard.rules.replace) ∨
    ∃ description : OperatorDescription,
      ov.rules.replace = description.overload.rules.replace

namespace Registry

variable {registry : Registry}

theorem described_standard : Registry.standard.Described := fun ov hov ↦ .inr (.inl ⟨ov, hov, rfl⟩)

theorem Described.uniform (h : registry.Described) : registry.Uniform := by
  intro ov hov rule hru
  rcases h ov hov with hno | ⟨standard, hstandard, hsame⟩ | ⟨description, hsame⟩
  · cases hno.symm.trans hru
  · exact standard_uniform standard hstandard (hsame.symm.trans hru)
  · exact description.uniform (hsame.symm.trans hru)

end Registry

namespace Draft

theorem run_difference_input :
    ((Build.request (.apply "-" [.node ⟨0, 1⟩, .node ⟨0, 1⟩])).run inputDraft).1 = .ok ⟨0, 2⟩ := by cbv

end Draft

end DiffGraph
