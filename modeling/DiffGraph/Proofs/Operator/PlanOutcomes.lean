import DiffGraph.Proofs.Operator.Confinement

/-!
How plans end. What holds of every end of a plan is said along the plan itself: which results it may
have, and which errors it may fail with as long as it is told of no others (`Plan.Yields`).

Rules for gradients should pass them on to the operands of the application only, and the rules of
the standard operators do (`Registry.standard_passesToOperands`).
-/

set_option autoImplicit false

namespace DiffGraph

variable {α : Type} {fault : Error → Prop}

namespace Plan

section Outcomes

variable {β : Type}

/-- The plan ends with such a result or fails with such an error. A failure that it is told of is
taken to be such an error too. -/
def Yields (fault : Error → Prop) (res : α → Prop) : Plan α → Prop
  | .done m => res m
  | .fail error => fault error
  | .build _ next => ∀ answer, (∀ error, answer = .error error → fault error) →
    (next answer).Yields fault res
  | .inspect _ next => ∀ n, (next n).Yields fault res
  | .isZero _ next => ∀ answer, (next answer).Yields fault res
  | .isOne _ next => ∀ answer, (next answer).Yields fault res

/-- The plan fails with one of the faults only. -/
abbrev FailsWithin (fault : Error → Prop) (plan : Plan α) : Prop := plan.Yields fault fun _ ↦ True

variable {res : α → Prop} {result' : β → Prop}

theorem failsWithin_any (plan : Plan α) : plan.FailsWithin fun _ ↦ True := by
  induction plan with
  | done | fail => trivial
  | build _ _ ih => exact fun answer _ ↦ ih answer
  | inspect _ _ ih | isZero _ _ ih | isOne _ _ ih => exact ih

theorem Yields.mono {plan : Plan α} {weaker : α → Prop} (h : plan.Yields fault res)
    (hweaker : ∀ m, res m → weaker m) : plan.Yields fault weaker := by
  induction plan with
  | done m => exact hweaker m h
  | fail => exact h
  | build _ _ ih => exact fun answer hans ↦ ih answer (h answer hans)
  | inspect _ _ ih => exact fun n ↦ ih n (h n)
  | isZero _ _ ih | isOne _ _ ih => exact fun answer ↦ ih answer (h answer)

theorem Yields.failsWithin {plan : Plan α} (h : plan.Yields fault res) : plan.FailsWithin fault :=
  h.mono fun _ _ ↦ trivial

end Outcomes

/-- The contributions are to the operands, and the plan fails as any plan may. -/
abbrev PassesTo (args : List NodeId) (plan : Plan (List Contribution)) : Prop :=
  plan.Yields Error.Ordinary fun flows ↦ ∀ flow ∈ flows, flow.target ∈ args

end Plan

/-- Gradients are passed on to the operands of an application only, and no rule makes up an error
about gradients. -/
structure Overload.PassesToOperands (ov : Overload) : Prop where
  gradient : ∀ rule, ov.rules.gradient = some rule → ∀ args gradient,
    (rule args gradient).PassesTo args
  replace : ∀ rule, ov.rules.replace = some rule → ∀ args,
    (rule args).FailsWithin Error.Ordinary

def Registry.PassesToOperands (registry : Registry) : Prop :=
  ∀ ov ∈ registry.overloads, ov.PassesToOperands

/-- How a plan that goes in step with itself ends. -/
theorem Plan.InStep.yields {built : Bool} {k : List (NodeId × NodeId)}
    {res : Bool → List (NodeId × NodeId) → α → α → Prop} {found : α → Prop} {plan : Plan α}
    (h : InStep (fun e _ ↦ fault e) res built k plan plan)
    (hres : ∀ {built k a}, res built k a a → found a) : plan.Yields fault found := by
  induction plan generalizing built k with
  | done a => exact hres h
  | fail => exact h
  | build _ _ ih =>
    intro answer hans
    cases answer with
    | ok id => exact ih _ (h.2.1 id id)
    | error e => exact ih _ (h.2.2 e e (hans e rfl))
  | inspect _ _ ih => exact fun n ↦ ih n (h.2 n n ⟨rfl, rfl, rfl⟩)
  | isZero _ _ ih | isOne _ _ ih => exact fun answer ↦ ih answer (h.2 answer)

/-- All rules of the overload fail with such errors only. -/
structure Overload.FailsWithin (fault : Error → Prop) (ov : Overload) : Prop where
  replace : ∀ rule, ov.rules.replace = some rule → ∀ args,
    (rule args).FailsWithin fault
  derivative : ∀ rule, ov.rules.derivative = some rule → ∀ args tangents,
    (rule args tangents).FailsWithin fault
  gradient : ∀ rule, ov.rules.gradient = some rule → ∀ args c,
    (rule args c).FailsWithin fault

theorem Overload.failsWithin_any (ov : Overload) : ov.FailsWithin fun _ ↦ True :=
  ⟨fun _ _ _ ↦ Plan.failsWithin_any _, fun _ _ _ _ ↦ Plan.failsWithin_any _,
    fun _ _ _ _ ↦ Plan.failsWithin_any _⟩

section Standard

variable {ov : Overload} (hm : ov ∈ Registry.standard.overloads)
  (hbs : ∀ error : Error, error.Basic → fault error)

include hm hbs

theorem Registry.standard_passes {rule : List NodeId → NodeId → Plan (List Contribution)}
    (hru : ov.rules.gradient = some rule) (operands : List NodeId) (c : NodeId) :
    (rule operands c).Yields fault fun flows ↦ ∀ flow ∈ flows, flow.target ∈ operands := by
  have hstep : Plan.InStep (fun e _ ↦ fault e) _ _ _ (rule operands c) _ :=
    (standard_inStep ov hm).calculus.2 rule hru hbs
      (handed_self (List.subset_cons_self c operands)) List.mem_cons_self
  refine hstep.yields fun hflows flow hflow ↦ ?_
  exact (List.of_mem_zip ((List.forall₂_same.mp hflows) flow hflow).1).1

/-- The standard operators fail in a basic way, unless a request fails in another. -/
theorem Registry.standard_failsWithin : ov.FailsWithin fault where
  replace rule hru operands := by
    have hstep : Plan.InStep (fun e _ ↦ fault e) _ _ _ (rule operands) _ :=
      (standard_inStep ov hm).replace rule hru hbs (doubles_oneToOne operands)
        (handed_self (List.Subset.refl operands))
    exact hstep.yields fun _ ↦ trivial
  derivative rule hru operands tangents := by
    have hstep : Plan.InStep (fun e _ ↦ fault e) _ _ _ (rule operands tangents) _ :=
      (standard_inStep ov hm).calculus.1 rule hru hbs
        (handed_self (List.subset_append_left operands tangents))
        (handed_self (List.subset_append_right operands tangents))
    exact hstep.yields fun _ ↦ trivial
  gradient rule hru operands amount := (standard_passes hm hbs hru operands amount).failsWithin

end Standard

/-- The standard operators pass gradients on to their operands. -/
theorem Registry.standard_passesToOperands : Registry.standard.PassesToOperands :=
  fun _ hm ↦ ⟨fun _ hru ↦ standard_passes hm (fun _ h ↦ h.ordinary) hru,
    (standard_failsWithin hm fun _ h ↦ h.ordinary).replace⟩

end DiffGraph
