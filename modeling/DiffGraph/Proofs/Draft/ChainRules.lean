import DiffGraph.Proofs.Draft.Calculus

/-!
The chain rules of the standard operators, forwards and backwards. Every operator of a floating-point
type has a rule for derivatives and a rule for gradients. The first builds the differential of the
operator from the derivatives of its operands (`differentiates`). The second sends amounts to the
operands which, weighted with any numbers in the place of the operands' derivatives, add up to the
gradient times the differential (`propagates`): the two rules are adjoint to each other. The rules of
an operator ask for arithmetic and for the functions that `Precision.calls` lists.
-/

set_option autoImplicit false

namespace DiffGraph

open List Draft Build

variable {name : String}

/-- The functions that the rules of an operator call. -/
def Precision.calls : String → List String
  | "sin" => ["cos"]
  | "cos" => ["sin"]
  | "tan" => ["cos", "sqr"]
  | "exp" => ["exp"]
  | "sqrt" => ["sqrt"]
  | "tanh" => ["tanh", "sqr"]
  | "cube" => ["sqr"]
  | "relu" | "leaky_relu" | "min" | "max" => ["step"]
  | _ => []

theorem Precision.calls_subset_names (name : String) : calls name ⊆ names := by
  unfold calls
  split <;> decide

namespace Setting

variable {F : Type} [Field F] (S : Setting F)

/-- The operator's rule for derivatives builds its differential. -/
def Differentiates (ov : Overload) : Prop :=
  ∃ rule, ov.rules.derivative = some rule ∧
    ∀ {d : Draft} {ids tangents : List NodeId} {xs dxs : List F},
      ov.accepts (ids.map fun _ ↦ S.precision.type) = true →
      Forall₂ (S.Means d) ids xs → Forall₂ (S.Means d) tangents dxs →
      tangents.length = ids.length →
      S.Makes d (rule ids tangents) fun d' id ↦
        S.Means d' id (S.interpretation.differential ov.name xs dxs)

/-- Amounts that flow into operands. Weighted, they add up to a given number. -/
structure Flows (d : Draft) (ids : List NodeId) (weighted : (NodeId → F) → F)
    (flows : List Contribution) : Prop where
  targets : ∀ flow ∈ flows, flow.target ∈ ids
  amounts : ∀ flow ∈ flows, d.Term S.precision.type flow.amount
  total : d.Precedes S.last → ∀ weight : NodeId → F,
    (flows.map fun flow ↦ S.last.graph.denote S.interpretation.model flow.amount *
      weight flow.target).sum = weighted weight

/-- The operator's rule for gradients passes on the gradient times the differential. -/
def Propagates (ov : Overload) : Prop :=
  ∃ rule, ov.rules.gradient = some rule ∧
    ∀ {d : Draft} {ids : List NodeId} {gradient : NodeId} {xs : List F} {g : F},
      ov.accepts (ids.map fun _ ↦ S.precision.type) = true →
      Forall₂ (S.Means d) ids xs → S.Means d gradient g →
      S.Makes d (rule ids gradient)
        (S.Flows · ids fun weight ↦
          g * S.interpretation.differential ov.name xs (ids.map weight))

/-- Both rules of an operator. -/
structure ChainRules (ov : Overload) : Prop where
  differentiates : S.Differentiates ov
  propagates : S.Propagates ov

variable {S} {d : Draft} {a b ga gb : NodeId} {x y g p q : F}

theorem flows_single (hga : S.Means d ga (g * p))
    (hru : ∀ dx, S.interpretation.differential name [x] [dx] = p * dx) :
    S.Flows d [a] (fun weight ↦ g * S.interpretation.differential name [x] ([a].map weight))
      [⟨a, ga⟩] where
  targets := forall_mem_singleton.mpr mem_cons_self
  amounts := forall_mem_singleton.mpr hga.term
  total hla weight := by
    simp only [map_cons, map_nil, sum_cons, sum_nil, hga.denote hla, hru]
    ring

theorem flows_pair (hga : S.Means d ga (g * p)) (hgb : S.Means d gb (g * q))
    (hru : ∀ dx dy, S.interpretation.differential name [x, y] [dx, dy] = p * dx + q * dy) :
    S.Flows d [a, b]
      (fun weight ↦ g * S.interpretation.differential name [x, y] ([a, b].map weight))
      [⟨a, ga⟩, ⟨b, gb⟩] where
  targets := forall_mem_cons.mpr ⟨mem_cons_self,
    forall_mem_singleton.mpr (mem_cons_of_mem _ mem_cons_self)⟩
  amounts := forall_mem_cons.mpr ⟨hga.term, forall_mem_singleton.mpr hgb.term⟩
  total hla weight := by
    simp only [map_cons, map_nil, sum_cons, sum_nil, hga.denote hla, hgb.denote hla, hru]
    ring

section Rules

variable {rules : Rules}

theorem differentiates_unary {rule : NodeId → NodeId → Plan NodeId}
    (hrus : rules.derivative = some fun args tangents ↦
      Rules.unaryPlan (fun a ↦ Rules.unaryPlan (fun da ↦ rule a da) tangents) args)
    (h : ∀ {d : Draft} {a da : NodeId} {x dx : F}, S.Means d a x → S.Means d da dx →
      S.Makes d (rule a da) fun d' id ↦
        S.Means d' id (S.interpretation.differential name [x] [dx])) :
    S.Differentiates (S.precision.unary name rules) := by
  refine ⟨_, hrus, fun {d ids tangents xs dxs} hacc hids htan hlen ↦ ?_⟩
  obtain ⟨a, rfl⟩ := exists_operand rfl hacc
  obtain ⟨da, rfl⟩ := length_eq_one_iff.mp hlen
  obtain - | ⟨ha, hno⟩ := hids
  cases hno
  obtain - | ⟨hda, hno⟩ := htan
  cases hno
  exact h ha hda

theorem differentiates_binary {rule : NodeId → NodeId → NodeId → NodeId → Plan NodeId}
    (hrus : rules.derivative = some fun args tangents ↦
      Rules.binaryPlan (fun a b ↦ Rules.binaryPlan (fun da db ↦ rule a b da db) tangents) args)
    (h : ∀ {d : Draft} {a b da db : NodeId} {x y dx dy : F}, S.Means d a x →
      S.Means d b y → S.Means d da dx → S.Means d db dy →
      S.Makes d (rule a b da db) fun d' id ↦
        S.Means d' id (S.interpretation.differential name [x, y] [dx, dy])) :
    S.Differentiates (S.precision.binary name rules) := by
  refine ⟨_, hrus, fun {d ids tangents xs dxs} hacc hids htan hlen ↦ ?_⟩
  obtain ⟨a, b, rfl⟩ := exists_operands rfl hacc
  obtain ⟨da, db, rfl⟩ := length_eq_two.mp hlen
  obtain - | ⟨ha, - | ⟨hb, hno⟩⟩ := hids
  cases hno
  obtain - | ⟨hda, - | ⟨hdb, hno⟩⟩ := htan
  cases hno
  exact h ha hb hda hdb

theorem propagates_unary {rule : NodeId → NodeId → Plan (List Contribution)}
    (hrus : rules.gradient = some fun args g ↦ Rules.unaryPlan (fun a ↦ rule a g) args)
    (h : ∀ {d : Draft} {a gradient : NodeId} {x g : F}, S.Means d a x → S.Means d gradient g →
      S.Makes d (rule a gradient) (S.Flows · [a] fun weight ↦
        g * S.interpretation.differential name [x] ([a].map weight))) :
    S.Propagates (S.precision.unary name rules) := by
  refine ⟨_, hrus, fun {d ids gradient xs g} hacc hids hgrad ↦ ?_⟩
  obtain ⟨a, rfl⟩ := exists_operand rfl hacc
  obtain - | ⟨ha, hno⟩ := hids
  cases hno
  exact h ha hgrad

theorem propagates_binary {rule : NodeId → NodeId → NodeId → Plan (List Contribution)}
    (hrus : rules.gradient = some fun args g ↦ Rules.binaryPlan (fun a b ↦ rule a b g) args)
    (h : ∀ {d : Draft} {a b gradient : NodeId} {x y g : F}, S.Means d a x →
      S.Means d b y → S.Means d gradient g →
      S.Makes d (rule a b gradient) (S.Flows · [a, b] fun weight ↦
        g * S.interpretation.differential name [x, y] ([a, b].map weight))) :
    S.Propagates (S.precision.binary name rules) := by
  refine ⟨_, hrus, fun {d ids gradient xs g} hacc hids hgrad ↦ ?_⟩
  obtain ⟨a, b, rfl⟩ := exists_operands rfl hacc
  obtain - | ⟨ha, - | ⟨hb, hno⟩⟩ := hids
  cases hno
  exact h ha hb hgrad

/-- Functions of one number, from a plan for their derivative. -/
theorem chainRules_unaryCalculus {slope : NodeId → Plan NodeId}
    (hslope : ∀ {d : Draft} {a : NodeId} {x : F}, S.Means d a x →
      S.Makes d (slope a) fun d' id ↦ S.Means d' id (S.interpretation.slope name x))
    (hru : ∀ x dx, S.interpretation.differential name [x] [dx] =
      S.interpretation.slope name x * dx) :
    S.ChainRules (S.precision.unary name (rules.unaryCalculus slope)) := by
  constructor
  · refine differentiates_unary rfl fun {d a da x dx} ha hda ↦ ?_
    refine (makes_holdsZero hda).bind fun {answer d'} hpr hz ↦ ?_
    rw [hru]
    split
    next hans =>
      have hda := hda.later hpr
      refine makes_pure ⟨hda.term, fun hla ↦ ?_⟩
      rw [hda.denote hla, hz hans hla, mul_zero]
    next =>
      refine (hslope (ha.later hpr)).bind fun hl hp ↦ ?_
      exact makes_mul hp (hda.later (hpr.trans hl))
  · refine propagates_unary rfl fun {d a gradient x g} ha hg ↦ ?_
    refine (hslope ha).bind fun hpr hp ↦ ?_
    refine (makes_mul (hg.later hpr) hp).bind fun _ hga ↦ ?_
    exact makes_pure (flows_single hga (hru x))

/-- Functions of two numbers, from a plan for their partial derivatives. -/
theorem chainRules_binaryCalculus {partials : NodeId → NodeId → Plan (NodeId × NodeId)}
    (hpartials : ∀ {d : Draft} {a b : NodeId} {x y : F}, S.Means d a x →
      S.Means d b y → S.Makes d (partials a b) fun d' ids ↦
        S.Means d' ids.1 (S.interpretation.partials name x y).1 ∧
          S.Means d' ids.2 (S.interpretation.partials name x y).2)
    (hru : ∀ x y dx dy, S.interpretation.differential name [x, y] [dx, dy] =
      (S.interpretation.partials name x y).1 * dx + (S.interpretation.partials name x y).2 * dy) :
    S.ChainRules (S.precision.binary name (rules.binaryCalculus partials)) := by
  constructor
  · refine differentiates_binary rfl fun {d a b da db x y dx dy} ha hb hda hdb ↦ ?_
    refine (hpartials ha hb).bind fun h₁ hp ↦ ?_
    refine (makes_mul hp.1 (hda.later h₁)).bind fun h₂ hta ↦ ?_
    refine (makes_mul (hp.2.later h₂) (hdb.later (h₁.trans h₂))).bind fun h₃ htb ↦ ?_
    rw [hru]
    exact makes_add (hta.later h₃) htb
  · refine propagates_binary rfl fun {d a b gradient x y g} ha hb hg ↦ ?_
    refine (hpartials ha hb).bind fun h₁ hp ↦ ?_
    refine (makes_mul (hg.later h₁) hp.1).bind fun h₂ hga ↦ ?_
    refine (makes_mul (hg.later (h₁.trans h₂)) (hp.2.later h₂)).bind fun h₃ hgb ↦ ?_
    exact makes_pure (flows_pair (hga.later h₃) hgb (hru x y))

end Rules

section Slopes

/-- A function that a rule calls. -/
theorem makes_call {op : String} (hcalls : Precision.calls op ⊆ S.functions)
    (ha : S.Means d a x) (hnm : name ∈ Precision.calls op)
    (hunary : name ∈ ["-", "sin", "cos", "exp", "sqrt", "tanh", "sqr", "step"]) :
    S.Makes d (Plan.call name a) fun d' id ↦ S.Means d' id (S.interpretation.operate name [x]) :=
  makes_unary ha (knows_function (hcalls hnm)) hunary

theorem makes_oneMinus (ha : S.Means d a x) :
    S.Makes d (Plan.withNumber "-" .one a) fun d' id ↦ S.Means d' id (1 - x) := by
  refine (makes_withNumber ha (by decide) rfl rfl).mono fun _ hid ↦ hid.of_eq ?_
  show S.interpretation.number .one - x = 1 - x
  rw [Interpretation.number_one]

theorem makes_oneOver (ha : S.Means d a x) :
    S.Makes d (Plan.withNumber "/" .one a) fun d' id ↦ S.Means d' id (1 / x) := by
  refine (makes_withNumber ha (by decide) rfl rfl).mono fun _ hid ↦ hid.of_eq ?_
  show S.interpretation.number .one / x = 1 / x
  rw [Interpretation.number_one]

theorem makes_cosineSlope (hcalls : Precision.calls "cos" ⊆ S.functions) (ha : S.Means d a x) :
    S.Makes d (do Plan.neg (← Plan.call "sin" a)) fun d' id ↦
      S.Means d' id (S.interpretation.slope "cos" x) :=
  (makes_call hcalls ha (by decide) (by decide)).bind fun _ hsine ↦ makes_neg hsine

theorem makes_tangentSlope (hcalls : Precision.calls "tan" ⊆ S.functions) (ha : S.Means d a x) :
    S.Makes d (do
      let c ← Plan.call "cos" a
      let square ← Plan.call "sqr" c
      Plan.withNumber "/" .one square) fun d' id ↦
      S.Means d' id (S.interpretation.slope "tan" x) := by
  refine (makes_call hcalls ha (by decide) (by decide)).bind fun _ hcosine ↦ ?_
  refine (makes_call hcalls hcosine (by decide) (by decide)).bind fun _ hsquare ↦ ?_
  exact makes_oneOver hsquare

theorem makes_squareRootSlope (hcalls : Precision.calls "sqrt" ⊆ S.functions) (ha : S.Means d a x) :
    S.Makes d (do Plan.withNumber "/" .half (← Plan.call "sqrt" a)) fun d' id ↦
      S.Means d' id (S.interpretation.slope "sqrt" x) :=
  (makes_call hcalls ha (by decide) (by decide)).bind fun _ hrt ↦
    makes_withNumber hrt (by decide) rfl rfl

theorem makes_hyperbolicTangentSlope (hcalls : Precision.calls "tanh" ⊆ S.functions)
    (ha : S.Means d a x) :
    S.Makes d (do
      let t ← Plan.call "tanh" a
      let square ← Plan.call "sqr" t
      Plan.withNumber "-" .one square) fun d' id ↦
      S.Means d' id (S.interpretation.slope "tanh" x) := by
  refine (makes_call hcalls ha (by decide) (by decide)).bind fun _ htangent ↦ ?_
  refine (makes_call hcalls htangent (by decide) (by decide)).bind fun _ hsquare ↦ ?_
  exact makes_oneMinus hsquare

theorem makes_cubeSlope (hcalls : Precision.calls "cube" ⊆ S.functions) (ha : S.Means d a x) :
    S.Makes d (do Plan.withNumber "*" .three (← Plan.call "sqr" a)) fun d' id ↦
      S.Means d' id (S.interpretation.slope "cube" x) :=
  (makes_call hcalls ha (by decide) (by decide)).bind fun _ hsquare ↦
    makes_withNumber hsquare (by decide) rfl rfl

theorem makes_leakyPartials (hcalls : Precision.calls "leaky_relu" ⊆ S.functions)
    (ha : S.Means d a x) (hb : S.Means d b y) :
    S.Makes d (do
      let on ← Plan.call "step" a
      let off ← Plan.withNumber "-" .one on
      let leak ← Plan.mul off b
      let px ← Plan.add on leak
      let pslope ← Plan.mul off a
      return (px, pslope)) fun d' ids ↦
      S.Means d' ids.1 (S.interpretation.partials "leaky_relu" x y).1 ∧
        S.Means d' ids.2 (S.interpretation.partials "leaky_relu" x y).2 := by
  refine (makes_call hcalls ha (by decide) (by decide)).bind fun h₁ hon ↦ ?_
  refine (makes_oneMinus hon).bind fun h₂ hoff ↦ ?_
  refine (makes_mul hoff (hb.later (h₁.trans h₂))).bind fun h₃ hleak ↦ ?_
  refine (makes_add (hon.later (h₂.trans h₃)) hleak).bind fun h₄ hpx ↦ ?_
  refine (makes_mul (hoff.later (h₃.trans h₄))
    (ha.later ((h₁.trans h₂).trans (h₃.trans h₄)))).bind fun h₅ hpslope ↦ ?_
  exact makes_pure ⟨hpx.later h₅, hpslope⟩

theorem makes_anglePartials (ha : S.Means d a x) (hb : S.Means d b y) : S.Makes d (do
      let xx ← Plan.mul b b
      let yy ← Plan.mul a a
      let r ← Plan.add xx yy
      let py ← Plan.div b r
      let quotient ← Plan.div a r
      let px ← Plan.neg quotient
      return (py, px)) fun d' ids ↦
      S.Means d' ids.1 (S.interpretation.partials "atan2" x y).1 ∧
        S.Means d' ids.2 (S.interpretation.partials "atan2" x y).2 := by
  refine (makes_mul hb hb).bind fun h₁ hyy ↦ ?_
  refine (makes_mul (ha.later h₁) (ha.later h₁)).bind fun h₂ hxx ↦ ?_
  refine (makes_add (hyy.later h₂) hxx).bind fun h₃ hr ↦ ?_
  refine (makes_div (hb.later ((h₁.trans h₂).trans h₃)) hr).bind fun h₄ hpy ↦ ?_
  refine (makes_div (ha.later ((h₁.trans h₂).trans (h₃.trans h₄))) (hr.later h₄)).bind
    fun h₅ hquotient ↦ ?_
  refine (makes_neg hquotient).bind fun h₆ hpx ↦ ?_
  exact makes_pure ⟨hpy.later (h₅.trans h₆), hpx⟩

/-- The smaller and the larger of two numbers pass on the derivative of the one that they are. -/
theorem makes_choicePartials (hcalls : "step" ∈ S.functions) (ha : S.Means d a x)
    (hb : S.Means d b y) :
    S.Makes d (do
      let difference ← Plan.sub a b
      let pa ← Plan.call "step" difference
      let pb ← Plan.withNumber "-" .one pa
      return (pa, pb)) fun d' ids ↦
      S.Means d' ids.1 (S.interpretation.function "step" [x - y]) ∧
        S.Means d' ids.2 (1 - S.interpretation.function "step" [x - y]) := by
  refine (makes_sub ha hb).bind fun _ hdifference ↦ ?_
  refine (makes_unary hdifference (knows_function hcalls) (by decide)).bind fun _ hpa ↦ ?_
  refine (makes_oneMinus hpa).bind fun h₃ hpb ↦ ?_
  exact makes_pure ⟨hpa.later h₃, hpb⟩

end Slopes

section Operators

theorem chainRules_addition : S.ChainRules S.precision.addition := by
  refine ⟨differentiates_binary rfl fun _ _ hda hdb ↦ makes_add hda hdb, ?_⟩
  refine propagates_binary rfl fun {_ _ _ _ _ _ g} _ _ hg ↦ makes_pure ?_
  exact flows_pair (hg.of_eq (mul_one g).symm) (hg.of_eq (mul_one g).symm) fun dx dy ↦
    show dx + dy = 1 * dx + 1 * dy by ring

theorem chainRules_subtraction : S.ChainRules S.precision.subtraction := by
  refine ⟨differentiates_binary rfl fun _ _ hda hdb ↦ makes_sub hda hdb, ?_⟩
  refine propagates_binary rfl fun {_ _ _ _ _ _ g} _ _ hg ↦ ?_
  refine (makes_neg hg).bind fun h₁ hneg ↦ makes_pure ?_
  exact flows_pair ((hg.later h₁).of_eq (mul_one g).symm) (hneg.of_eq (mul_neg_one g).symm)
    fun dx dy ↦ show dx - dy = 1 * dx + -1 * dy by ring

theorem chainRules_negation : S.ChainRules S.precision.negation := by
  refine ⟨differentiates_unary rfl fun _ hda ↦ makes_neg hda, ?_⟩
  refine propagates_unary rfl fun {_ _ _ _ g} _ hg ↦ ?_
  refine (makes_neg hg).bind fun _ hneg ↦ makes_pure ?_
  exact flows_single (hneg.of_eq (mul_neg_one g).symm) fun dx ↦ show -dx = -1 * dx by ring

theorem chainRules_multiplication : S.ChainRules S.precision.multiplication := by
  constructor
  · refine differentiates_binary rfl fun ha hb hda hdb ↦ ?_
    refine (makes_mul hda hb).bind fun h₁ hleft ↦ ?_
    refine (makes_mul (ha.later h₁) (hdb.later h₁)).bind fun h₂ hright ↦ ?_
    exact makes_add (hleft.later h₂) hright
  · refine propagates_binary rfl fun {_ _ _ _ x y _} ha hb hg ↦ ?_
    refine (makes_mul hg hb).bind fun h₁ hga ↦ ?_
    refine (makes_mul (hg.later h₁) (ha.later h₁)).bind fun h₂ hgb ↦ makes_pure ?_
    exact flows_pair (hga.later h₂) hgb fun dx dy ↦ show dx * y + x * dy = y * dx + x * dy by ring

theorem chainRules_division : S.ChainRules S.precision.division := by
  constructor
  · refine differentiates_binary rfl fun ha hb hda hdb ↦ ?_
    refine (makes_div hda hb).bind fun h₁ hleft ↦ ?_
    refine (makes_mul (ha.later h₁) (hdb.later h₁)).bind fun h₂ hnumerator ↦ ?_
    have hb := hb.later (h₁.trans h₂)
    refine (makes_mul hb hb).bind fun h₃ hsquare ↦ ?_
    refine (makes_div (hnumerator.later h₃) hsquare).bind fun h₄ hright ↦ ?_
    exact makes_sub (hleft.later (h₂.trans (h₃.trans h₄))) hright
  · refine propagates_binary rfl fun {_ _ _ _ x y g} ha hb hg ↦ ?_
    refine (makes_div hg hb).bind fun h₁ hga ↦ ?_
    refine (makes_mul (hg.later h₁) (ha.later h₁)).bind fun h₂ hnumerator ↦ ?_
    have hb := hb.later (h₁.trans h₂)
    refine (makes_mul hb hb).bind fun h₃ hsquare ↦ ?_
    refine (makes_div (hnumerator.later h₃) hsquare).bind fun h₄ hquotient ↦ ?_
    refine (makes_neg hquotient).bind fun h₅ hgb ↦ makes_pure ?_
    have hga := hga.later (h₂.trans (h₃.trans (h₄.trans h₅)))
    have hp : -(g * x / (y * y)) = g * -(x / (y * y)) := by ring
    exact flows_pair (hga.of_eq (div_eq_mul_inv g y)) (hgb.of_eq hp) fun dx dy ↦
      show dx / y - x * dy / (y * y) = y⁻¹ * dx + -(x / (y * y)) * dy by ring

theorem chainRules_unitStep : S.ChainRules S.precision.unitStep := by
  constructor
  · refine ⟨_, rfl, fun {d ids tangents xs dxs} hacc hids htan hlen ↦ ?_⟩
    obtain ⟨a, rfl⟩ := exists_operand rfl hacc
    obtain ⟨da, rfl⟩ := length_eq_one_iff.mp hlen
    obtain - | ⟨ha, hno⟩ := hids
    cases hno
    obtain - | ⟨-, hno⟩ := htan
    cases hno
    exact (makes_zeroLike ha).mono fun _ hid ↦ hid.of_eq (zero_mul _).symm
  · refine ⟨_, rfl, fun {d ids gradient xs g} hacc hids _ ↦ ?_⟩
    obtain ⟨a, rfl⟩ := exists_operand rfl hacc
    obtain - | ⟨-, hno⟩ := hids
    cases hno
    refine makes_pure ⟨forall_mem_nil _, forall_mem_nil _, fun _ weight ↦ ?_⟩
    show 0 = g * (0 * weight a)
    rw [zero_mul, mul_zero]

theorem chainRules : ∀ overload ∈ S.precision.operators,
    Precision.calls overload.name ⊆ S.functions → S.ChainRules overload := by
  simp only [Precision.operators, forall_mem_cons]
  refine ⟨fun _ ↦ chainRules_addition, fun _ ↦ chainRules_subtraction, fun _ ↦ chainRules_negation,
    fun _ ↦ chainRules_multiplication, fun _ ↦ chainRules_division, fun hcalls ↦ ?_, fun hcalls ↦ ?_,
    fun hcalls ↦ ?_, fun hcalls ↦ ?_, fun _ ↦ ?_, fun hcalls ↦ ?_, fun hcalls ↦ ?_, fun _ ↦ ?_,
    fun hcalls ↦ ?_, fun hcalls ↦ ?_, fun hcalls ↦ ?_, fun _ ↦ chainRules_unitStep, fun _ ↦ ?_,
    fun _ ↦ ?_, fun hcalls ↦ ?_, fun hcalls ↦ ?_, forall_mem_nil _⟩
  · exact chainRules_unaryCalculus (fun ha ↦ makes_call hcalls ha mem_cons_self (by decide))
      fun _ _ ↦ rfl
  · exact chainRules_unaryCalculus (makes_cosineSlope hcalls) fun _ _ ↦ rfl
  · exact chainRules_unaryCalculus (makes_tangentSlope hcalls) fun _ _ ↦ rfl
  · exact chainRules_unaryCalculus (fun ha ↦ makes_call hcalls ha mem_cons_self (by decide))
      fun _ _ ↦ rfl
  · exact chainRules_unaryCalculus makes_oneOver fun _ _ ↦ rfl
  · exact chainRules_unaryCalculus (makes_squareRootSlope hcalls) fun _ _ ↦ rfl
  · exact chainRules_unaryCalculus (makes_hyperbolicTangentSlope hcalls) fun _ _ ↦ rfl
  · exact chainRules_unaryCalculus (fun ha ↦ makes_withNumber ha (by decide) rfl rfl) fun _ _ ↦ rfl
  · exact chainRules_unaryCalculus (makes_cubeSlope hcalls) fun _ _ ↦ rfl
  · exact chainRules_unaryCalculus (fun ha ↦ makes_call hcalls ha mem_cons_self (by decide))
      fun _ _ ↦ rfl
  · exact chainRules_binaryCalculus (makes_leakyPartials hcalls) fun _ _ _ _ ↦ rfl
  · exact chainRules_unaryCalculus makes_oneLike fun _ _ ↦ rfl
  · exact chainRules_binaryCalculus makes_anglePartials fun _ _ _ _ ↦ rfl
  · exact chainRules_binaryCalculus
      (fun ha hb ↦ makes_choicePartials (hcalls mem_cons_self) hb ha) fun _ _ _ _ ↦ rfl
  · exact chainRules_binaryCalculus (makes_choicePartials (hcalls mem_cons_self)) fun _ _ _ _ ↦ rfl

end Operators

end Setting

end DiffGraph
