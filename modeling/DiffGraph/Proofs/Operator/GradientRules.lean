import DiffGraph.Proofs.Operator.Replacement
import DiffGraph.Proofs.Types.Numeric

/-!
What the rules for gradients of the standard operators ask for. A plan calculates with numbers of a
type if every request in it is for an operator on numbers of the type that are known at that point,
or for a unit of the type; what it is given becomes known. The rules of all standard operators
calculate with numbers of the operator's type, and the amounts that flow into the operands are such
numbers (`Registry.standard_passesNumbers`).
-/

set_option autoImplicit false

namespace DiffGraph

open List Precision

variable {k known : List NodeId} {a b c : NodeId}

/-- The request is for a number of the type, made of numbers that are known. -/
def Request.Calculates (t : String) (k : List NodeId) : Request → Prop
  | .apply name [.node a] => a ∈ k ∧ (Registry.standard.resolve name [t]).isSome = true
  | .apply name [.node a, .node b] =>
    a ∈ k ∧ b ∈ k ∧ (Registry.standard.resolve name [t, t]).isSome = true
  | .apply name [.float _, .node b] =>
    t ≠ "int" ∧ b ∈ k ∧ (Registry.standard.resolve name [t, t]).isSome = true
  | .one other => other = t
  | _ => False

/-- The plan calculates with numbers of the type and ends as described, from the numbers that are
known at first. -/
def Plan.Calculates {α : Type} (t : String) (res : List NodeId → α → Prop) :
    Plan α → List NodeId → Prop
  | .done a, k => res k a
  | .fail _, _ => False
  | .build q next, k =>
    q.Calculates t k ∧ ∀ id, (next (.ok id)).Calculates t res (id :: k)
  | .inspect id next, k =>
    id ∈ k ∧ ∀ n : Node, n.type = t → (next n).Calculates t res k
  | .isZero .., _ | .isOne .., _ => False

/-- Amounts that are known flow into the operands. -/
def FlowInto (args k : List NodeId) (flows : List Contribution) : Prop :=
  ∀ flow ∈ flows, flow.target ∈ args ∧ flow.amount ∈ k

/-- The rule for gradients of numbers of the type passes on such numbers. -/
def Overload.PassesNumbers (ov : Overload) (t : String) : Prop :=
  ∃ rule, ov.rules.gradient = some rule ∧ ∀ (args : List NodeId) (gradient : NodeId),
    ov.accepts (args.map fun _ ↦ t) = true →
      (rule args gradient).Calculates t (FlowInto args) (gradient :: args)

namespace Plan

variable {α β : Type} {t type : String}

theorem Calculates.bind {plan : Plan α} {res : List NodeId → α → Prop}
    (h : plan.Calculates t res known) {next : α → Plan β} {result' : List NodeId → β → Prop}
    (hnx : ∀ {known a}, res known a → (next a).Calculates t result' known) :
    (plan >>= next).Calculates t result' known := by
  induction plan generalizing known with
  | done a => exact hnx h
  | fail error => exact h
  | build q continuation ih => exact ⟨h.1, fun id ↦ ih _ (h.2 id)⟩
  | inspect id continuation ih => exact ⟨h.1, fun n ht ↦ ih n (h.2 n ht)⟩
  | isZero | isOne => exact h

/-- A product of known numbers. -/
theorem calculates_mul {prec : Precision} (h : prec = .double ∨ prec = .single) (ha : a ∈ known)
    (hb : b ∈ known) {res : List NodeId → NodeId → Prop} (hres : ∀ id, res (id :: known) id) :
    (Plan.mul a b).Calculates prec.type res known :=
  ⟨⟨ha, hb, resolve_arithmetic h "*" (by decide)⟩, hres⟩

end Plan

namespace Precision

open Plan (calculates_mul)

variable {prec : Precision} {name : String} {rules : Rules}

section Shapes

theorem passesNumbers_unary {rule : NodeId → NodeId → Plan (List Contribution)}
    (h : ∀ a g, (rule a g).Calculates prec.type (FlowInto [a]) [g, a]) :
    (prec.unary name (rules.unaryGradient rule)).PassesNumbers prec.type := by
  refine ⟨_, rfl, fun args g hacc ↦ ?_⟩
  have hlen := congrArg length (ArgumentPattern.accepts_unary hacc)
  rw [length_map] at hlen
  obtain ⟨a, rfl⟩ := length_eq_one_iff.mp hlen
  exact h a g

theorem passesNumbers_binary {rule : NodeId → NodeId → NodeId → Plan (List Contribution)}
    (h : ∀ a b g, (rule a b g).Calculates prec.type (FlowInto [a, b]) [g, a, b]) :
    (prec.binary name (rules.binaryGradient rule)).PassesNumbers prec.type := by
  refine ⟨_, rfl, fun args g hacc ↦ ?_⟩
  have hlen := congrArg length (ArgumentPattern.accepts_binary hacc)
  rw [length_map] at hlen
  obtain ⟨a, b, rfl⟩ := length_eq_two.mp hlen
  exact h a b g

theorem flowInto_one (h : c ∈ k) : FlowInto [a] k [⟨a, c⟩] :=
  forall_mem_singleton.mpr ⟨mem_cons_self, h⟩

theorem flowInto_two {amount' : NodeId} (h : c ∈ k) (h' : amount' ∈ k) :
    FlowInto [a, b] k [⟨a, c⟩, ⟨b, amount'⟩] :=
  forall_mem_cons.mpr ⟨⟨mem_cons_self, h⟩,
    forall_mem_singleton.mpr ⟨mem_cons_of_mem a mem_cons_self, h'⟩⟩

/-- A function of one number, from a plan for its derivative. -/
theorem passesNumbers_unaryCalculus (hpc : prec = .double ∨ prec = .single)
    {slope : NodeId → Plan NodeId}
    (h : ∀ a g, (slope a).Calculates prec.type (fun k p ↦ g ∈ k ∧ p ∈ k) [g, a]) :
    (prec.unary name (rules.unaryCalculus slope)).PassesNumbers prec.type := by
  refine passesNumbers_unary fun a g ↦ (h a g).bind fun {k p} hp ↦ ?_
  exact (calculates_mul hpc hp.1 hp.2 fun _ ↦ mem_cons_self).bind flowInto_one

/-- A function of two numbers, from a plan for its partial derivatives. -/
theorem passesNumbers_binaryCalculus (hpc : prec = .double ∨ prec = .single)
    {partials : NodeId → NodeId → Plan (NodeId × NodeId)}
    (h : ∀ a b g, (partials a b).Calculates prec.type
      (fun k p ↦ g ∈ k ∧ p.1 ∈ k ∧ p.2 ∈ k) [g, a, b]) :
    (prec.binary name (rules.binaryCalculus partials)).PassesNumbers prec.type := by
  refine passesNumbers_binary fun a b g ↦ (h a b g).bind fun {k p} hp ↦ ?_
  obtain ⟨hg, hpa, hpb⟩ := hp
  refine ⟨⟨hg, hpa, resolve_arithmetic hpc "*" (by decide)⟩, fun ga ↦ ?_⟩
  refine ⟨⟨mem_cons_of_mem _ hg, mem_cons_of_mem _ hpb,
    resolve_arithmetic hpc "*" (by decide)⟩, fun gb ↦ ?_⟩
  exact flowInto_two (mem_cons_of_mem _ mem_cons_self) mem_cons_self

end Shapes

/-- The rules for gradients of the operators on floating-point numbers pass on such numbers. -/
theorem passesNumbers (hpc : prec = .double ∨ prec = .single) :
    ∀ ov ∈ prec.operators, ov.PassesNumbers prec.type := by
  have hfloat : prec.type ≠ "int" := by
    rcases hpc with rfl | rfl <;> decide
  have hunary := resolve_unary hpc
  have harithmetic := resolve_arithmetic hpc
  simp only [forall_mem_cons] at hunary harithmetic
  simp only [operators, forall_mem_cons]
  refine ⟨passesNumbers_binary fun a b g ↦ ?_, passesNumbers_binary fun a b g ↦ ?_,
    passesNumbers_unary fun a g ↦ ?_, passesNumbers_binary fun a b g ↦ ?_,
    passesNumbers_binary fun a b g ↦ ?_,
    passesNumbers_unaryCalculus hpc fun a g ↦ ?_,
    passesNumbers_unaryCalculus hpc fun a g ↦ ?_,
    passesNumbers_unaryCalculus hpc fun a g ↦ ?_,
    passesNumbers_unaryCalculus hpc fun a g ↦ ?_,
    passesNumbers_unaryCalculus hpc fun a g ↦ ?_,
    passesNumbers_unaryCalculus hpc fun a g ↦ ?_,
    passesNumbers_unaryCalculus hpc fun a g ↦ ?_,
    passesNumbers_unaryCalculus hpc fun a g ↦ ?_,
    passesNumbers_unaryCalculus hpc fun a g ↦ ?_,
    passesNumbers_unaryCalculus hpc fun a g ↦ ?_,
    passesNumbers_binaryCalculus hpc fun a b g ↦ ?_,
    ⟨_, rfl, fun _ _ _ _ hno ↦ absurd hno not_mem_nil⟩,
    passesNumbers_unaryCalculus hpc fun a g ↦ ?_,
    passesNumbers_binaryCalculus hpc fun a b g ↦ ?_,
    passesNumbers_binaryCalculus hpc fun a b g ↦ ?_,
    passesNumbers_binaryCalculus hpc fun a b g ↦ ?_,
    forall_mem_nil _⟩
  -- What is left are the rules of arithmetic, the derivatives and the partial derivatives, which
  -- are gone through request by request.
  all_goals simp [Plan.Calculates, Request.Calculates, FlowInto, Bind.bind, Pure.pure, Plan.bind,
    Plan.request, Plan.call, Plan.apply, Plan.withNumber, Plan.mul, Plan.add, Plan.sub, Plan.div,
    Plan.neg, Plan.oneLike, Plan.typeOf, hfloat, hunary, harithmetic]

end Precision

/-- Nothing flows into the operands of integer arithmetic. -/
theorem IntegerArithmetic.passesNumbers : ∀ ov ∈ operators, ov.PassesNumbers "int" := by
  have hno : ∀ ov ∈ operators, ov.rules.gradient = some fun _ _ ↦ .done [] := by
    simp only [operators, forall_mem_cons]
    exact ⟨rfl, rfl, rfl, rfl, forall_mem_nil _⟩
  intro ov hm
  exact ⟨_, hno ov hm, fun _ _ _ _ h ↦ absurd h not_mem_nil⟩

/-- A standard operator takes and gives numbers of one type, and its rule for gradients passes on
such numbers. -/
theorem Registry.standard_passesNumbers {ov : Overload} (h : ov ∈ Registry.standard.overloads) :
    ∃ type ∈ TypeTable.numbers, ov.result = .named type ∧ ov.Replaces type ∧
      ov.PassesNumbers type := by
  rcases mem_append.mp h with h | h
  · rcases mem_append.mp h with h | h
    · exact ⟨"double", by decide, result_eq h, Precision.replaces h,
        Precision.passesNumbers (.inl rfl) ov h⟩
    · exact ⟨"float", by decide, result_eq h, Precision.replaces h,
        Precision.passesNumbers (.inr rfl) ov h⟩
  · exact ⟨"int", by decide, IntegerArithmetic.result_eq h, IntegerArithmetic.replaces h,
      IntegerArithmetic.passesNumbers ov h⟩

end DiffGraph
