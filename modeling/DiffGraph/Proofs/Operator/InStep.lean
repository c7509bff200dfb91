import DiffGraph.Operator.Description
import DiffGraph.Proofs.Operator.Replacement

/-!
Plans that go in step. Two plans go in step if they do the same things to corresponding nodes
(`Plan.InStep`). Nodes correspond if they are paired at first, if requests of both plans were met with
them, or if they are the operands of an expression that both plans look at.

The rules of the standard operators go in step with themselves (`Registry.standard_inStep`), and so
do rules of replacement that are described by a condition and a formula
(`OperatorDescription.replacementPlan_inStep`). What such rules ask for, which nodes they hand on and
what they depend on all follows from this.
-/

set_option autoImplicit false

namespace DiffGraph

variable {k : List (NodeId × NodeId)} {alike : Error → Error → Prop}

/-- The same numbers, or nodes that correspond. -/
def Operand.InStep (k : List (NodeId × NodeId)) : Operand → Operand → Prop
  | .node a, .node b => (a, b) ∈ k
  | .float x, .float y => x = y
  | .int m, .int n => m = n
  | _, _ => False

/-- The same request for an expression, up to nodes that correspond. -/
def Request.InStep (k : List (NodeId × NodeId)) : Request → Request → Prop
  | .apply op args, .apply op' args' =>
    op = op' ∧ List.Forall₂ (Operand.InStep k) args args'
  | .member a field, .member b field' => (a, b) ∈ k ∧ field = field'
  | .index a pos, .index b pos' => (a, b) ∈ k ∧ pos = pos'
  | .constant t v, .constant t' v' => t = t' ∧ v = v'
  | .one t, .one t' => t = t'
  | _, _ => False

/-- The operands of an expression. -/
def Node.parts (node : Node) : List NodeId :=
  match node.kind with
  | .expression _ args => args
  | _ => []

/-- Nodes that differ in the names of their operands only. -/
structure Node.Resembles (n m : Node) : Prop where
  type : n.type = m.type
  head : n.kind.head = m.kind.head
  parts : n.parts.length = m.parts.length

theorem Operand.InStep.mono {later : List (NodeId × NodeId)} {arg operand' : Operand}
    (h : arg.InStep k operand') (hl : k ⊆ later) : arg.InStep later operand' := by
  cases arg <;> cases operand' <;> first | exact hl h | exact h

theorem Node.Resembles.constant?_eq {n m : Node} (h : n.Resembles m) :
    n.constant? = m.constant? := by
  have hhd := h.head
  unfold Node.constant?
  generalize n.kind = kind at hhd
  generalize m.kind = kind' at hhd
  cases kind <;> cases kind' <;> simp_all [NodeKind.head]

namespace Plan

variable {α β γ δ : Type} {built : Bool} {a b : NodeId}

/-- The plans do the same to corresponding nodes and end as described. The description may depend on
the pairs that are known then, and on whether anything was built. Failures are alike if those are
that the plans are told of. -/
def InStep (alike : Error → Error → Prop) (res : Bool → List (NodeId × NodeId) → α → β → Prop) :
    Bool → List (NodeId × NodeId) → Plan α → Plan β → Prop
  | built, k, .done a, .done b => res built k a b
  | _, _, .fail e, .fail e' => alike e e'
  | _, k, .build q next, .build request' next' => q.InStep k request' ∧
    (∀ a b, InStep alike res true ((a, b) :: k) (next (.ok a)) (next' (.ok b))) ∧
      ∀ e e', alike e e' → InStep alike res true k (next (.error e)) (next' (.error e'))
  | built, k, .inspect a next, .inspect b next' => (a, b) ∈ k ∧
    ∀ n m : Node, n.Resembles m →
      InStep alike res built (n.parts.zip m.parts ++ k) (next n) (next' m)
  | built, k, .isZero a next, .isZero b next' => (a, b) ∈ k ∧
    ∀ answer, InStep alike res built k (next answer) (next' answer)
  | built, k, .isOne a next, .isOne b next' => (a, b) ∈ k ∧
    ∀ answer, InStep alike res built k (next answer) (next' answer)
  | _, _, _, _ => False

/-- The plans end with nodes that correspond. -/
def Handed (_ : Bool) (k : List (NodeId × NodeId)) (a b : NodeId) : Prop := (a, b) ∈ k

/-- The plans end with nodes that correspond, or without any and then without having built
anything. -/
def Found (built : Bool) (k : List (NodeId × NodeId)) : Option NodeId → Option NodeId → Prop
  | some a, some b => (a, b) ∈ k
  | none, none => built = false
  | _, _ => False

variable {res : Bool → List (NodeId × NodeId) → α → β → Prop}
  {result' : Bool → List (NodeId × NodeId) → γ → δ → Prop}

theorem InStep.bind {plan : Plan α} {plan' : Plan β} {next : α → Plan γ} {next' : β → Plan δ}
    (h : InStep alike res built k plan plan')
    (hnx : ∀ {built later a b}, k ⊆ later → res built later a b →
      InStep alike result' built later (next a) (next' b)) :
    InStep alike result' built k (plan >>= next) (plan' >>= next') := by
  induction plan generalizing plan' built k with
  | done a =>
    cases plan' with
    | done b => exact hnx (List.Subset.refl k) h
    | _ => cases h
  | fail e =>
    cases plan' with
    | fail e' => exact h
    | _ => cases h
  | build q _ ih =>
    cases plan' with
    | build request' _ =>
      obtain ⟨hreq, hok, he⟩ := h
      refine ⟨hreq, fun a b ↦ ih _ (hok a b) fun hsubset ↦ hnx fun pair hpair ↦ ?_,
        fun e e' hal ↦ ih _ (he e e' hal) hnx⟩
      exact hsubset (List.mem_cons_of_mem _ hpair)
    | _ => cases h
  | inspect a _ ih =>
    cases plan' with
    | inspect b _ =>
      refine ⟨h.1, fun n m hlike ↦ ih n (h.2 n m hlike) fun hsubset ↦ hnx fun pair hpair ↦ ?_⟩
      exact hsubset (List.mem_append_right _ hpair)
    | _ => cases h
  | isZero a _ ih =>
    cases plan' with
    | isZero b _ => exact ⟨h.1, fun answer ↦ ih answer (h.2 answer) hnx⟩
    | _ => cases h
  | isOne a _ ih =>
    cases plan' with
    | isOne b _ => exact ⟨h.1, fun answer ↦ ih answer (h.2 answer) hnx⟩
    | _ => cases h

/-- A question that is answered from the constant of a node. -/
theorem inStep_constant (h : (a, b) ∈ k) (test : Value → Bool) :
    InStep alike (fun now _ answer answer' ↦ now = built ∧ answer = answer') built k
      (Plan.inspect a fun n ↦ .done (n.constant?.any test))
      (Plan.inspect b fun n ↦ .done (n.constant?.any test)) :=
  ⟨h, fun _ _ hlike ↦ ⟨rfl, by rw [hlike.constant?_eq]⟩⟩

/-- Plans that first ask a question with one answer. -/
theorem InStep.guard {test test' : Plan Bool} {yes no : Plan γ} {yes' no' : Plan δ}
    (htest : InStep alike (fun now _ answer answer' ↦ now = built ∧ answer = answer') built k
      test test')
    (hyes : ∀ {later}, k ⊆ later → InStep alike result' built later yes yes')
    (hno : ∀ {later}, k ⊆ later → InStep alike result' built later no no') :
    InStep alike result' built k (do if ← test then yes else no)
      (do if ← test' then yes' else no') := by
  refine htest.bind fun {_ _ answer _} hl hans ↦ ?_
  obtain ⟨rfl, rfl⟩ := hans
  cases answer with
  | true => exact hyes hl
  | false => exact hno hl

theorem inStep_call (op : String) (h : (a, b) ∈ k) :
    InStep alike Handed built k (Plan.call op a) (Plan.call op b) :=
  ⟨⟨rfl, .cons h .nil⟩, fun _ _ ↦ List.mem_cons_self, fun _ _ h ↦ h⟩

theorem inStep_zeroLike (h : (a, b) ∈ k) :
    InStep alike Handed built k (Plan.zeroLike a) (Plan.zeroLike b) :=
  ⟨h, fun _ _ hlike ↦ ⟨⟨hlike.type, rfl⟩, fun _ _ ↦ List.mem_cons_self, fun _ _ h ↦ h⟩⟩

/-- A plan for a node that is passed on. -/
theorem InStep.some {plan plan' : Plan NodeId} (h : InStep alike Handed built k plan plan') :
    InStep alike Found built k (do return some (← plan)) (do return some (← plan')) :=
  h.bind fun _ hpair ↦ hpair

end Plan

namespace Rules

open Plan

/-- A rule of replacement that goes in step with itself. Which of its operands are equal matters to
it. -/
def ReplacesInStep (rule : List NodeId → Plan (Option NodeId)) : Prop :=
  ∀ ⦃alike : Error → Error → Prop⦄ ⦃k : List (NodeId × NodeId)⦄
    ⦃args args' : List NodeId⦄, (∀ e : Error, e.Basic → alike e e) →
    (∀ p ∈ k, ∀ q ∈ k, p.1 = q.1 ↔ p.2 = q.2) →
    List.Forall₂ (Handed false k) args args' →
      InStep alike Found false k (rule args) (rule args')

/-- A rule for derivatives that goes in step with itself. -/
def DifferentiatesInStep (rule : List NodeId → List NodeId → Plan NodeId) : Prop :=
  ∀ ⦃alike : Error → Error → Prop⦄ ⦃k : List (NodeId × NodeId)⦄
    ⦃args args' tangents tangents' : List NodeId⦄, (∀ e : Error, e.Basic → alike e e) →
    List.Forall₂ (Handed false k) args args' →
    List.Forall₂ (Handed false k) tangents tangents' →
      InStep alike Handed false k (rule args tangents) (rule args' tangents')

/-- A rule for gradients that goes in step with itself and passes them on to the operands. -/
def PassesInStep (rule : List NodeId → NodeId → Plan (List Contribution)) : Prop :=
  ∀ ⦃alike : Error → Error → Prop⦄ ⦃k : List (NodeId × NodeId)⦄
    ⦃args args' : List NodeId⦄ ⦃g g' : NodeId⦄, (∀ e : Error, e.Basic → alike e e) →
    List.Forall₂ (Handed false k) args args' → (g, g') ∈ k →
      InStep alike (fun _ k ↦ List.Forall₂ fun flow flow' ↦
        (flow.target, flow'.target) ∈ args.zip args' ∧
          (flow.amount, flow'.amount) ∈ k) false k (rule args g) (rule args' g')

section Shapes

variable {α β : Type} {res : Bool → List (NodeId × NodeId) → α → β → Prop}
  {args args' : List NodeId} {a b a' b' : NodeId}

variable (hbs : ∀ e : Error, e.Basic → alike e e)
include hbs

theorem inStep_unaryPlan {plan : NodeId → Plan α} {plan' : NodeId → Plan β}
    (hops : List.Forall₂ (Handed false k) args args')
    (h : ∀ {a a'}, args = [a] → args' = [a'] → (a, a') ∈ k →
      InStep alike res false k (plan a) (plan' a')) :
    InStep alike res false k (unaryPlan plan args) (unaryPlan plan' args') := by
  obtain - | ⟨ha, - | ⟨hb, hrs⟩⟩ := hops
  · exact hbs _ trivial
  · exact h rfl rfl ha
  · simp only [unaryPlan, List.length_cons, hrs.length_eq]
    exact hbs _ trivial

theorem inStep_binaryPlan {plan : NodeId → NodeId → Plan α} {plan' : NodeId → NodeId → Plan β}
    (hops : List.Forall₂ (Handed false k) args args')
    (h : ∀ {a a' b b'}, args = [a, b] → args' = [a', b'] → (a, a') ∈ k →
      (b, b') ∈ k → InStep alike res false k (plan a b) (plan' a' b')) :
    InStep alike res false k (binaryPlan plan args) (binaryPlan plan' args') := by
  obtain - | ⟨ha, - | ⟨hb, - | ⟨hc, hrs⟩⟩⟩ := hops
  · exact hbs _ trivial
  · exact hbs _ trivial
  · exact h rfl rfl ha hb
  · simp only [binaryPlan, List.length_cons, hrs.length_eq]
    exact hbs _ trivial

theorem inStep_operand {built : Bool} {later : List (NodeId × NodeId)}
    (hops : List.Forall₂ (Handed false k) args args') (pos : Nat) :
    InStep alike (fun now _ a b ↦ now = built ∧ (a, b) ∈ k) built later
      (Plan.operand args pos) (Plan.operand args' pos) := by
  unfold Plan.operand operandAt
  by_cases hlt : pos < args.length
  · have hlt' : pos < args'.length := hops.length_eq ▸ hlt
    rw [List.getElem?_eq_getElem hlt, List.getElem?_eq_getElem hlt']
    exact ⟨rfl, hops.get hlt hlt'⟩
  · have hlt' : ¬pos < args'.length := hops.length_eq ▸ hlt
    rw [List.getElem?_eq_none (Nat.le_of_not_lt hlt), List.getElem?_eq_none (Nat.le_of_not_lt hlt'),
      hops.length_eq]
    exact hbs _ trivial

end Shapes

section Replacements

variable {a b a' b' : NodeId}

theorem replaceAdd_inStep (ha : (a, a') ∈ k) (hb : (b, b') ∈ k) :
    InStep alike Found false k (replaceAdd a b) (replaceAdd a' b') := by
  refine (inStep_constant hb _).guard (fun h ↦ h ha) fun h ↦ ?_
  exact (inStep_constant (h ha) _).guard (fun hl ↦ hl (h hb)) fun _ ↦ rfl

theorem replaceSub_inStep (ha : (a, a') ∈ k) (hb : (b, b') ∈ k) (hsame : a = b ↔ a' = b') :
    InStep alike Found false k (replaceSub a b) (replaceSub a' b') := by
  refine (inStep_constant hb _).guard (fun h ↦ h ha) fun h ↦ ?_
  refine (inStep_constant (h ha) _).guard (fun hl ↦ ?_) fun hl ↦ ?_
  · exact InStep.some (inStep_call "-" (hl (h hb)))
  by_cases heq : a = b
  · rw [if_pos heq, if_pos (hsame.mp heq)]
    exact InStep.some (inStep_zeroLike (hl (h ha)))
  · rw [if_neg heq, if_neg (heq ∘ hsame.mpr)]
    exact rfl

/-- The negation of a negation is known by its shape. -/
theorem replaceNeg_inStep (ha : (a, a') ∈ k) :
    InStep alike Found false k (replaceNeg a) (replaceNeg a') := by
  refine ⟨ha, fun n m hlike ↦ ?_⟩
  have hhd := hlike.head
  have hps := hlike.parts
  dsimp only [Plan.bind]
  generalize hn : n.kind = kind at hhd
  generalize hm : m.kind = kind' at hhd
  split
  next inner =>
    cases kind' <;> cases hhd
    simp only [Node.parts, hn, hm] at hps ⊢
    obtain ⟨inner', rfl⟩ := List.length_eq_one_iff.mp hps.symm
    exact List.mem_cons_self
  next ho =>
    split
    next inner' =>
      cases kind <;> cases hhd
      simp only [Node.parts, hn, hm] at hps
      obtain ⟨inner, rfl⟩ := List.length_eq_one_iff.mp hps
      exact absurd rfl (ho _ _)
    next => exact rfl

theorem replaceMul_inStep (ha : (a, a') ∈ k) (hb : (b, b') ∈ k) :
    InStep alike Found false k (replaceMul a b) (replaceMul a' b') := by
  refine (inStep_constant ha _).guard (fun h ↦ (inStep_zeroLike (h ha)).some) fun h ↦ ?_
  replace ha := h ha
  replace hb := h hb
  refine (inStep_constant hb _).guard (fun h ↦ (inStep_zeroLike (h ha)).some) fun h ↦ ?_
  replace ha := h ha
  replace hb := h hb
  refine (inStep_constant hb _).guard (fun h ↦ h ha) fun h ↦ ?_
  exact (inStep_constant (h ha) _).guard (fun hl ↦ hl (h hb)) fun _ ↦ rfl

theorem replaceDiv_inStep (ha : (a, a') ∈ k) (hb : (b, b') ∈ k) :
    InStep alike Found false k (replaceDiv a b) (replaceDiv a' b') := by
  refine (inStep_constant hb _).guard (fun h ↦ h ha) fun h ↦ ?_
  exact (inStep_constant (h ha) _).guard (fun hl ↦ hl (h ha)) fun _ ↦ rfl

end Replacements

/-- The rules for derivatives and gradients, if there are any, go in step with themselves. -/
def CalculusInStep (rules : Rules) : Prop :=
  (∀ rule, rules.derivative = some rule → DifferentiatesInStep rule) ∧
    ∀ rule, rules.gradient = some rule → PassesInStep rule

section Calculus

variable {rules : Rules}

theorem unary_calculusInStep {rule : (a da : NodeId) → Plan NodeId}
    {gradient : (a g : NodeId) → Plan (List Contribution)}
    (hderivative : ∀ {alike k a a' da da'}, (a, a') ∈ k → (da, da') ∈ k →
      InStep alike Handed false k (rule a da) (rule a' da'))
    (hgrad : ∀ {alike k a a' g g'}, (a, a') ∈ k → (g, g') ∈ k →
      InStep alike (fun _ k ↦ List.Forall₂ fun flow flow' ↦
        (flow.target, flow'.target) ∈ [(a, a')] ∧ (flow.amount, flow'.amount) ∈ k)
        false k (gradient a g) (gradient a' g')) :
    ((rules.unaryDerivative rule).unaryGradient gradient).CalculusInStep := by
  constructor
  · rintro _ ⟨⟩ alike k _ _ _ _ hbs hops htan
    exact inStep_unaryPlan hbs hops fun _ _ ha ↦
      inStep_unaryPlan hbs htan fun _ _ hda ↦ hderivative ha hda
  · rintro _ ⟨⟩ alike k _ _ _ _ hbs hops hg
    refine inStep_unaryPlan hbs hops ?_
    rintro a a' rfl rfl ha
    exact hgrad ha hg

theorem binary_calculusInStep {rule : (a b da db : NodeId) → Plan NodeId}
    {gradient : (a b g : NodeId) → Plan (List Contribution)}
    (hderivative : ∀ {alike k a a' b b' da da' db db'}, (a, a') ∈ k → (b, b') ∈ k →
      (da, da') ∈ k → (db, db') ∈ k →
      InStep alike Handed false k (rule a b da db) (rule a' b' da' db'))
    (hgrad : ∀ {alike k a a' b b' g g'}, (a, a') ∈ k → (b, b') ∈ k →
      (g, g') ∈ k → InStep alike (fun _ k ↦ List.Forall₂ fun flow flow' ↦
        (flow.target, flow'.target) ∈ [(a, a'), (b, b')] ∧ (flow.amount, flow'.amount) ∈ k)
        false k (gradient a b g) (gradient a' b' g')) :
    ((rules.binaryDerivative rule).binaryGradient gradient).CalculusInStep := by
  constructor
  · rintro _ ⟨⟩ alike k _ _ _ _ hbs hops htan
    exact inStep_binaryPlan hbs hops fun _ _ ha hb ↦
      inStep_binaryPlan hbs htan fun _ _ hda hdb ↦ hderivative ha hb hda hdb
  · rintro _ ⟨⟩ alike k _ _ _ _ hbs hops hg
    refine inStep_binaryPlan hbs hops ?_
    rintro a a' b b' rfl rfl ha hb
    exact hgrad ha hb hg

theorem withoutCalculus_calculusInStep : rules.withoutCalculus.CalculusInStep := by
  constructor
  · rintro _ ⟨⟩ alike k _ _ _ _ hbs hops -
    exact (inStep_operand hbs hops 0).bind fun h ha ↦ inStep_zeroLike (h ha.2)
  · rintro _ ⟨⟩ alike k _ _ _ _ - - -
    exact .nil

end Calculus

end Rules

/-- The rules of the overload go in step with themselves. -/
structure Overload.InStep (ov : Overload) : Prop where
  replace : ∀ rule, ov.rules.replace = some rule → Rules.ReplacesInStep rule
  calculus : ov.rules.CalculusInStep

section Standard

open Plan Rules

variable {ov : Overload} {prec : Precision}

theorem Overload.Replaces.inStep {t : String} (h : ov.Replaces t) :
    ∀ rule, ov.rules.replace = some rule → ReplacesInStep rule := by
  intro rule hru
  have hbinary {plan : NodeId → NodeId → Plan (Option NodeId)}
      (hsome : ov.rules.replace = some (binaryPlan plan))
      (hplan : ∀ {alike : Error → Error → Prop} {k a a' b b'}, (a, a') ∈ k → (b, b') ∈ k → (a = b ↔ a' = b') →
        Plan.InStep alike Found false k (plan a b) (plan a' b')) : ReplacesInStep rule := by
    cases hsome.symm.trans hru
    intro alike k _ _ hbs hone hops
    refine inStep_binaryPlan hbs hops fun _ _ ha hb ↦ ?_
    exact hplan ha hb (hone _ ha _ hb)
  cases h with
  | addition _ _ hsome => exact hbinary hsome fun ha hb _ ↦ replaceAdd_inStep ha hb
  | subtraction _ _ hsome => exact hbinary hsome replaceSub_inStep
  | negation _ _ hsome =>
    cases hsome.symm.trans hru
    intro alike k _ _ hbs _ hops
    exact inStep_unaryPlan hbs hops fun _ _ ha ↦ replaceNeg_inStep ha
  | multiplication _ _ hsome => exact hbinary hsome fun ha hb _ ↦ replaceMul_inStep ha hb
  | division _ _ hsome => exact hbinary hsome fun ha hb _ ↦ replaceDiv_inStep ha hb
  | unary _ hno | binary _ hno => cases hno.symm.trans hru

theorem Precision.calculusInStep (h : ov ∈ prec.operators) : ov.rules.CalculusInStep := by
  revert ov
  simp only [operators, List.forall_mem_cons]
  refine ⟨binary_calculusInStep ?_ ?_, binary_calculusInStep ?_ ?_, unary_calculusInStep ?_ ?_,
    binary_calculusInStep ?_ ?_, binary_calculusInStep ?_ ?_, unary_calculusInStep ?_ ?_,
    unary_calculusInStep ?_ ?_, unary_calculusInStep ?_ ?_, unary_calculusInStep ?_ ?_,
    unary_calculusInStep ?_ ?_, unary_calculusInStep ?_ ?_, unary_calculusInStep ?_ ?_,
    unary_calculusInStep ?_ ?_, unary_calculusInStep ?_ ?_, unary_calculusInStep ?_ ?_,
    binary_calculusInStep ?_ ?_, withoutCalculus_calculusInStep, unary_calculusInStep ?_ ?_,
    binary_calculusInStep ?_ ?_, binary_calculusInStep ?_ ?_, binary_calculusInStep ?_ ?_,
    List.forall_mem_nil _⟩
  -- The derivatives and gradients of each operator are gone through request by request.
  all_goals
    intros
    simp [Plan.InStep, Request.InStep, Operand.InStep, Handed, Bind.bind, Pure.pure, Plan.bind,
      Plan.request, Plan.call, Plan.apply, Plan.withNumber, Plan.mul, Plan.add, Plan.sub, Plan.div,
      Plan.neg, Plan.oneLike, Plan.typeOf, Plan.holdsZero, *]
  -- One rule asks for the unit of a type.
  all_goals exact fun _ _ ↦ Node.Resembles.type

theorem IntegerArithmetic.calculusInStep (h : ov ∈ IntegerArithmetic.operators) :
    ov.rules.CalculusInStep := by
  revert ov
  simp only [IntegerArithmetic.operators, List.forall_mem_cons]
  exact ⟨withoutCalculus_calculusInStep, withoutCalculus_calculusInStep,
    withoutCalculus_calculusInStep, withoutCalculus_calculusInStep, List.forall_mem_nil _⟩

/-- The rules of the standard operators go in step with themselves. -/
theorem Registry.standard_inStep : ∀ ov ∈ Registry.standard.overloads, ov.InStep := by
  intro ov h
  obtain ⟨t, hreplaces⟩ := standard_replaces h
  refine ⟨hreplaces.inStep, ?_⟩
  rcases List.mem_append.mp h with hfloats | hinteger
  · rcases List.mem_append.mp hfloats with hdouble | hsg
    · exact Precision.calculusInStep hdouble
    · exact Precision.calculusInStep hsg
  · exact IntegerArithmetic.calculusInStep hinteger

end Standard

section Descriptions

open Plan Rules

variable {args args' : List NodeId} {built : Bool}

variable (hbs : ∀ e : Error, e.Basic → alike e e)
include hbs

/-- Whether a condition holds can be told from corresponding operands. -/
theorem Condition.inStep {later : List (NodeId × NodeId)}
    (hone : ∀ p ∈ k, ∀ q ∈ k, p.1 = q.1 ↔ p.2 = q.2)
    (hops : List.Forall₂ (Handed false k) args args') (cond : Condition) (hl : k ⊆ later) :
    Plan.InStep alike (fun now _ answer answer' ↦ now = built ∧ answer = answer') built later
      (Plan.decide args cond) (Plan.decide args' cond) := by
  induction cond generalizing later with
  | always => exact ⟨rfl, rfl⟩
  | count number => exact ⟨rfl, by rw [hops.length_eq]⟩
  | isZero i | isOne i =>
    refine (inStep_operand hbs hops i).bind fun h ha ↦ ?_
    exact ⟨h (hl ha.2), fun _ ↦ ⟨ha.1, rfl⟩⟩
  | zeroConstant i | oneConstant i =>
    refine (inStep_operand hbs hops i).bind fun h ha ↦ ?_
    obtain ⟨rfl, ha⟩ := ha
    exact inStep_constant (h (hl ha)) _
  | same i j =>
    refine (inStep_operand hbs hops i).bind fun h ha ↦ ?_
    refine (inStep_operand hbs hops j).bind fun _ hb ↦ ⟨hb.1.trans ha.1, ?_⟩
    have hsame := hone _ ha.2 _ hb.2
    rw [Bool.eq_iff_iff, beq_iff_eq, beq_iff_eq]
    exact hsame
  | both p q ihp ihq =>
    exact (ihp hl).guard (fun h ↦ ihq (List.Subset.trans hl h)) fun _ ↦ ⟨rfl, rfl⟩
  | either p q ihp ihq =>
    exact (ihp hl).guard (fun _ ↦ ⟨rfl, rfl⟩) fun h ↦ ihq (List.Subset.trans hl h)

/-- A number is no node, whichever plan is told so. -/
theorem Operand.InStep.asNode {arg arg' : Operand} (h : arg.InStep k arg') :
    Plan.InStep alike Handed built k (Formula.asNode arg) (Formula.asNode arg') := by
  cases arg <;> cases arg' <;> first | exact h | exact hbs _ trivial

mutual

/-- A formula over corresponding operands. -/
theorem Formula.operandPlan_inStep {later : List (NodeId × NodeId)}
    (hops : List.Forall₂ (Handed false k) args args') (hl : k ⊆ later)
    (built : Bool) (formula : Formula) :
    Plan.InStep alike (fun _ k ↦ Operand.InStep k) built later
      (formula.operandPlan ⟨args, none, none⟩) (formula.operandPlan ⟨args', none, none⟩) := by
  cases formula with
  | operand i =>
    exact (inStep_operand hbs hops i).bind fun h ha ↦ h (hl ha.2)
  | tangent i => exact (inStep_operand hbs hops i).bind fun _ _ ↦ hbs _ trivial
  | incoming => exact hbs _ trivial
  | float | int => exact rfl
  | zero t => exact ⟨⟨rfl, rfl⟩, fun _ _ ↦ List.mem_cons_self, fun _ _ h ↦ h⟩
  | one t => exact ⟨rfl, fun _ _ ↦ List.mem_cons_self, fun _ _ h ↦ h⟩
  | member base | index base =>
    refine (Formula.operandPlan_inStep hops hl built base).bind fun _ h ↦ ?_
    refine (h.asNode hbs).bind fun _ h ↦ ?_
    exact ⟨⟨h, rfl⟩, fun _ _ ↦ List.mem_cons_self, fun _ _ h ↦ h⟩
  | apply op formulas =>
    refine (Formula.operandPlans_inStep hops hl built formulas).bind fun _ h ↦ ?_
    exact ⟨⟨rfl, h⟩, fun _ _ ↦ List.mem_cons_self, fun _ _ h ↦ h⟩

theorem Formula.operandPlans_inStep {later : List (NodeId × NodeId)}
    (hops : List.Forall₂ (Handed false k) args args') (hl : k ⊆ later)
    (built : Bool) (formulas : List Formula) :
    Plan.InStep alike (fun _ k ↦ List.Forall₂ (Operand.InStep k)) built later
      (Formula.operandPlans ⟨args, none, none⟩ formulas)
      (Formula.operandPlans ⟨args', none, none⟩ formulas) := by
  cases formulas with
  | nil => exact .nil
  | cons formula formulas =>
    refine (Formula.operandPlan_inStep hops hl built formula).bind fun h hfst ↦ ?_
    refine (Formula.operandPlans_inStep hops (List.Subset.trans hl h) _ formulas).bind fun h hrs ↦ ?_
    exact List.Forall₂.cons (hfst.mono h) hrs

end

omit hbs in
/-- A replacement that is described by a condition and a formula goes in step with itself. -/
theorem OperatorDescription.replacementPlan_inStep (cond : Condition) (formula : Formula) :
    ReplacesInStep (replacementPlan cond formula) := by
  intro alike k args args' hbs hone hops
  refine (cond.inStep hbs hone hops (List.Subset.refl k)).guard (fun h ↦ ?_) fun _ ↦ rfl
  exact ((formula.operandPlan_inStep hbs hops h false).bind fun _ h ↦ h.asNode hbs).some

end Descriptions

end DiffGraph
