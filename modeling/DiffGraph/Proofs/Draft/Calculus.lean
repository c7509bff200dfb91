import DiffGraph.Proofs.Draft.Simplification

/-!
Plans of construction and what the nodes that they build denote. A setting fixes an interpretation in
a field and a last draft, on whose constants the interpretation is exact as far as arithmetic and some
other operators are concerned; a node of an earlier draft means what it denotes there. A plan that is
carried out on nodes with given meanings builds nodes whose meanings are computed from them, and it
fails only if fewer than two nested replacements are allowed.
-/

set_option autoImplicit false

namespace DiffGraph

open Stateful Draft Build List Precision

variable {name : String} {d draft : Draft} {F : Type} {ids : List NodeId} {defn : TypeDefinition}
  {v : Binary64} {mayFail : Prop} {kind : Scalar}

/-- The operators that are arithmetic in every field. -/
def Interpretation.arithmetic : List String := ["+", "-", "*", "/"]

/-- The interpretation is exact on floating-point constants of the draft. -/
def Interpretation.Exact {F : Type} [Field F] (I : Interpretation F) (d : Draft)
    (names : List String) : Prop :=
  ∀ ⦃prec : Precision⦄, prec = .double ∨ prec = .single →
    I.model.Exact d prec.type names

theorem Interpretation.Exact.fewer [Field F] {I : Interpretation F} {names others : List String}
    (h : I.Exact d names) (hos : others ⊆ names) : I.Exact d others :=
  fun _ hpc ↦ (h hpc).fewer hos

theorem Interpretation.exact_new [Field F] {I : Interpretation F} (owner : Nat) (name : String)
    (operators : Registry) (ts : TypeTable) (options : Options) (names : List String) :
    I.Exact (Draft.new owner name operators ts options) names :=
  fun _ _ ↦ Model.exact_of_isEmpty
    (fun hn ↦ by simp [Draft.new, Graph.empty, Graph.node?] at hn) _ _

/-- An interpretation that is exact on the constants of a last draft, where arithmetic and the
functions that are listed are concerned. -/
structure Setting (F : Type) [Field F] where
  interpretation : Interpretation F
  last : Draft
  functions : List String
  exact : interpretation.Exact last (Interpretation.arithmetic ++ functions)
  precision : Precision
  limit : Nat

namespace Setting

variable [Field F] (S : Setting F)

/-- The same setting with numbers of another precision. -/
def within (precision : Precision) : Setting F := { S with precision }

/-- What the node denotes in the last draft. -/
def value (id : NodeId) : F := S.last.graph.denote S.interpretation.model id

/-- The derivative of the node with respect to the address that the path leads to. -/
def slopeAt (path : AccessPath) (id : NodeId) : F := S.interpretation.tangent path S.last.graph id

/-- The draft computes in the precision of the setting. -/
structure Ready (d : Draft) : Prop where
  sound : d.Sound
  supports : d.Supports S.precision
  limit : d.options.replacementLimit = S.limit

/-- The node is a term, and if the draft leads up to the last one it denotes the number there. -/
structure Means (d : Draft) (id : NodeId) (x : F) : Prop where
  term : d.Term S.precision.type id
  denote : d.Precedes S.last → S.last.graph.denote S.interpretation.model id = x

/-- The interpretation is exact on the operator. -/
def Knows (name : String) : Prop := name ∈ Interpretation.arithmetic ++ S.functions

/-- Carrying the plan out comes to a result as described, unless too few replacements are
allowed. -/
def Makes {α : Type} (d : Draft) (plan : Plan α) (res : Draft → α → Prop) : Prop :=
  S.Ready d → d.Attains (Build.carryOut plan) (S.limit < 2) res

variable {S} {d' after : Draft} {id a b : NodeId} {x y : F}

theorem Ready.later (h : S.Ready d) (hpr : d.Precedes after) (hs : after.Sound) : S.Ready after :=
  ⟨hs, h.supports.later hpr, (congrArg _ hpr.options).trans h.limit⟩

theorem Ready.earlier (h : S.Ready d') (hpr : draft.Precedes d') (hs : draft.Sound) :
    S.Ready draft :=
  ⟨hs, h.supports.earlier hpr, (congrArg _ hpr.options).symm.trans h.limit⟩

theorem Means.later (h : S.Means d id x) (hpr : d.Precedes d') : S.Means d' id x :=
  ⟨h.term.later hpr, fun hla ↦ h.denote (hpr.trans hla)⟩

theorem knows_arithmetic (h : name ∈ Interpretation.arithmetic) : S.Knows name :=
  mem_append_left _ h

theorem knows_function (h : name ∈ S.functions) : S.Knows name := mem_append_right _ h

theorem Means.of_eq (h : S.Means d id x) (heq : x = y) : S.Means d id y := heq ▸ h

theorem Means.congr (h : S.Means d id x) (heq : d.Precedes S.last → x = y) : S.Means d id y :=
  ⟨h.term, fun hla ↦ (h.denote hla).trans (heq hla)⟩

theorem means_value (h : d.Term S.precision.type id) : S.Means d id (S.value id) := ⟨h, fun _ ↦ rfl⟩

section Plans

variable {α β : Type} {plan : Plan α} {res result : Draft → α → Prop}

theorem makes_pure {v : α} (h : result d v) : S.Makes d (pure v : Plan α) result :=
  fun hrd ↦ attains_pure hrd.sound h

theorem Makes.bind (h : S.Makes d plan res) {next : α → Plan β} {result' : Draft → β → Prop}
    (hnx : ∀ {v d'}, d.Precedes d' → res d' v → S.Makes d' (next v) result') :
    S.Makes d (plan >>= next) result' := by
  intro hrd
  rw [Build.carryOut, Plan.run_bind]
  exact (h hrd).bind fun hpr hs hv ↦ hnx hpr hv (hrd.later hpr hs)

theorem Makes.mono (h : S.Makes d plan res) {result' : Draft → α → Prop}
    (himp : ∀ {d' v}, d.Precedes d' → res d' v → result' d' v) :
    S.Makes d plan result' :=
  fun hrd ↦ (h hrd).mono (fun hfl ↦ hfl) fun hpr _ ↦ himp hpr

end Plans

section Applications

/-- A request is met with all replacements that are allowed. -/
theorem run_carryOut_request (hrd : S.Ready draft) (w : Request) :
    (Build.carryOut (Plan.request w)).run draft = (Build.perform S.limit w).run draft := by
  rw [Build.carryOut, Plan.run_request, Build.request, run_get_bind, hrd.limit]

theorem Means.terms {xs : List F} (hids : List.Forall₂ (S.Means d) ids xs) :
    ∀ operand ∈ ids, d.Term S.precision.type operand := by
  intro operand hop
  obtain ⟨pos, hpos, rfl⟩ := mem_iff_getElem.mp hop
  exact (hids.get hpos (hids.length_eq ▸ hpos)).term

/-- What stands for an application means the result of the operator. -/
theorem Means.of_simplifies (hrd : S.Ready d) (hnm : S.Knows name) {xs : List F}
    (hids : List.Forall₂ (S.Means d) ids xs) (h : d.Simplifies S.precision.type name ids id) :
    S.Means d id (S.interpretation.operate name xs) := by
  refine ⟨h.term (terms hids), fun hla ↦ ?_⟩
  rw [(h.later hla).denote S.interpretation.lawful (S.exact hrd.supports.standard) hnm]
  refine congrArg (S.interpretation.operate name) ?_
  clear h
  induction hids with
  | nil => rfl
  | cons hfst _ ih => rw [map_cons, hfst.denote hla, ih]

/-- Requests for operators on nodes with known meanings. -/
theorem makes_apply (hnm : S.Knows name) {xs : List F} (hids : List.Forall₂ (S.Means d) ids xs)
    (hrv : (Registry.standard.resolve name (ids.map fun _ ↦ S.precision.type)).isSome = true) :
    S.Makes d (Plan.apply name (ids.map .node)) fun d' id ↦
      S.Means d' id (S.interpretation.operate name xs) := by
  intro hrd
  obtain ⟨⟨pos, ov⟩, hrv⟩ := Option.isSome_iff_exists.mp hrv
  have hlen := length_le_two_of_resolve hrd.supports.standard hrv (by simp)
  rw [length_map] at hlen
  have happly := attains_perform_apply S.limit hrd.sound hrd.supports.calculates
    (fun id hid ↦ (Means.terms hids id hid).holdsValue) hrv
  refine (happly.mono (fun hfew ↦ hfew.trans_le hlen) fun hpr hs hsimplifies ↦
    ?_).of_run (run_carryOut_request hrd _)
  exact .of_simplifies (hrd.later hpr hs) hnm (hids.imp fun _ _ h ↦ h.later hpr) hsimplifies

theorem makes_unary (ha : S.Means d a x) (hnm : S.Knows name)
    (hunary : name ∈ ["-", "sin", "cos", "exp", "sqrt", "tanh", "sqr", "step"]) :
    S.Makes d (Plan.call name a) fun d' id ↦ S.Means d' id (S.interpretation.operate name [x]) :=
  fun hrd ↦ makes_apply hnm (.cons ha .nil) (resolve_unary hrd.supports.standard name hunary) hrd

section

variable (ha : S.Means d a x) (hb : S.Means d b y)

include ha hb

theorem makes_arithmetic (hnm : name ∈ Interpretation.arithmetic) :
    S.Makes d (Plan.apply name [.node a, .node b]) fun d' id ↦
      S.Means d' id (S.interpretation.operate name [x, y]) :=
  fun hrd ↦ makes_apply (knows_arithmetic hnm) (.cons ha (.cons hb .nil))
    (resolve_arithmetic hrd.supports.standard name hnm) hrd

theorem makes_add : S.Makes d (Plan.add a b) fun d' id ↦ S.Means d' id (x + y) :=
  makes_arithmetic ha hb (by decide)

theorem makes_sub : S.Makes d (Plan.sub a b) fun d' id ↦ S.Means d' id (x - y) :=
  makes_arithmetic ha hb (by decide)

theorem makes_mul : S.Makes d (Plan.mul a b) fun d' id ↦ S.Means d' id (x * y) :=
  makes_arithmetic ha hb (by decide)

theorem makes_div : S.Makes d (Plan.div a b) fun d' id ↦ S.Means d' id (x / y) :=
  makes_arithmetic ha hb (by decide)

end

theorem makes_neg (ha : S.Means d a x) : S.Makes d (Plan.neg a) fun d' id ↦ S.Means d' id (-x) :=
  makes_unary ha (knows_arithmetic (by decide)) (by decide)

end Applications

section Numbers

theorem Means.of_constant {v : Value} (h : d.StoresConstant id S.precision.type v)
    (hv : S.interpretation.constant v = x) : S.Means d id x :=
  ⟨.constant h, fun hla ↦ (h.later hla).denote.trans hv⟩

/-- A number of the type of a node, combined with the node. -/
theorem run_withNumber {n : Node} {number : NodeId} (rest : Nat)
    (hn : d.graph.node? a = some n) (hg : d.types.get? n.type = some defn)
    (hfloat : defn.isFloat = true) (hpr : d.Precedes after) (hnb : after.graph.Owns number)
    (hr : (Build.constant n.type (.float v)).run d = (.ok number, after)) :
    (Build.perform rest (.apply name [.float v, .node a])).run d =
      (Build.perform rest (.apply name [.node number, .node a])).run after := by
  have how := Graph.owns_of_node? hn
  have ht : (Build.floatTypeAmong [.float v, .node a]).run d = (.ok (some n.type), d) := by
    show (Build.floatTypeAmong [.node a]).run d = _
    rw [Build.floatTypeAmong, run_bind_of_ok (run_checkOwned_of_owns how),
      run_bind_of_ok (run_typeOf_of_some hn), run_get_bind,
      hg, Option.any_some, hfloat]
    rfl
  have hcoerce : (Build.coerce [.float v, .node a]).run d = (.ok [number, a], after) := by
    rw [Build.coerce, run_bind_of_ok ht, mapM_cons]
    show ((Build.constant n.type (.float v)) >>= _).run d = _
    rw [run_bind_of_ok hr]
    rfl
  have hns : (Build.coerce [.node number, .node a]).run after = (.ok [number, a], after) :=
    run_coerce_nodes (forall_mem_cons.mpr ⟨hnb, forall_mem_singleton.mpr (hpr.graph.owns how)⟩)
  rw [perform_eq, Build.performWith, Build.performWith, Build.applyWith, Build.applyWith,
    run_bind_of_ok hcoerce, run_bind_of_ok hns]

theorem normalize_number {value : Binary64} (hsh : defn.shape = .scalar kind)
    (hk : kind.isFloat = true) (hz : value.isZero = false) (hsg : value.toSingle = value) :
    defn.normalize (.float value) = .float value := by
  have hcanonical : (Value.float value).canonical = .float value := by
    rw [Value.canonical, hz]
    rfl
  rw [TypeDefinition.normalize, hsh]
  dsimp only
  rw [hcanonical]
  cases kind with
  | double => rfl
  | single => exact congrArg Value.float hsg
  | integer | boolean => cases hk

theorem makes_withNumber (ha : S.Means d a x)
    (hnm : name ∈ Interpretation.arithmetic) (hz : v.isZero = false) (hsg : v.toSingle = v) :
    S.Makes d (Plan.withNumber name v a) fun d' id ↦
      S.Means d' id (S.interpretation.operate name [S.interpretation.number v, x]) := by
  intro hrd
  obtain ⟨defn, kind, hg, hsh, hk⟩ := hrd.supports.scalar
  obtain ⟨n, hn, ht, -⟩ := ha.term.holdsValue
  obtain ⟨number, middle, hr, hgr, hs, hst⟩ := (attains_constant hrd.sound hg (.float v)).exists_ok
  have hpr := hgr.toPrecedes
  rw [normalize_number hsh hk hz hsg] at hst
  have hfloat : defn.isFloat = true := by
    rw [TypeDefinition.isFloat, TypeDefinition.scalar?, hsh]
    exact hk
  have hready' := hrd.later hpr hs
  have hnb : S.Means middle number (S.interpretation.number v) := .of_constant hst rfl
  have hreq : (Build.carryOut (Plan.withNumber name v a)).run d =
      (Build.carryOut (Plan.apply name [.node number, .node a])).run middle := by
    rw [Plan.withNumber, Plan.apply, run_carryOut_request hrd, Plan.apply,
      run_carryOut_request hready']
    rw [← ht] at hg hr
    exact run_withNumber S.limit hn hg hfloat hpr hst.holdsValue.owns hr
  rcases makes_arithmetic hnb (ha.later hpr) hnm hready' with
    ⟨id, d', hla, haf, hrs⟩ | ⟨hfl, error, d', hla⟩
  · exact .inl ⟨id, d', hreq.trans hla, hgr.trans haf, hrs⟩
  · exact .inr ⟨hfl, error, d', hreq.trans hla⟩

/-- The zero of the setting's type means zero. -/
theorem attains_zero (hrd : S.Ready d) :
    d.Attains (Build.zero S.precision.type) mayFail fun d' id ↦ S.Means d' id 0 := by
  obtain ⟨defn, hg, hv⟩ := hrd.supports.calculates.zero
  have hz : d.Attains (Build.zero S.precision.type) mayFail _ := attains_constant hrd.sound hg .zero
  exact hz.mono (fun hfl ↦ hfl) fun _ _ hst ↦ .of_constant hst (S.interpretation.constant_zero hv)

theorem makes_zeroLike (ha : S.Means d a x) :
    S.Makes d (Plan.zeroLike a) fun d' id ↦ S.Means d' id 0 := by
  intro hrd
  obtain ⟨n, hn, ht, -⟩ := ha.term.holdsValue
  rw [Build.carryOut, Plan.zeroLike, Plan.run_bind]
  refine Attains.after_ok ?_ (run_bind_of_ok (run_node_of_some hn))
  rw [ht]
  refine (attains_zero hrd).of_run ?_
  refine (run_carryOut_request hrd (.constant S.precision.type .zero)).trans ?_
  rw [perform_eq]
  rfl

theorem run_one {t : String} (hg : draft.types.get? t = some defn)
    (hsh : defn.shape = .scalar kind) (hk : kind.isFloat = true) :
    (Build.one t).run draft = (Build.constant t (.float .one)).run draft := by
  rw [Build.one, run_bind_of_ok (run_lookupType_of_some hg), TypeDefinition.scalar?, hsh]
  cases kind with
  | double | single => rfl
  | integer | boolean => cases hk

/-- The unit of the setting's type means one. -/
theorem attains_one (hrd : S.Ready d) :
    d.Attains (Build.one S.precision.type) mayFail fun d' id ↦ S.Means d' id 1 := by
  obtain ⟨defn, kind, hg, hsh, hk⟩ := hrd.supports.scalar
  have hone : d.Attains (Build.constant S.precision.type (.float .one)) mayFail _ :=
    attains_constant hrd.sound hg (.float .one)
  refine (hone.of_run (run_one hg hsh hk)).mono (fun hfl ↦ hfl) fun _ _ hst ↦ ?_
  rw [normalize_number hsh hk rfl rfl] at hst
  exact .of_constant hst S.interpretation.number_one

theorem makes_oneLike (ha : S.Means d a x) :
    S.Makes d (Plan.oneLike a) fun d' id ↦ S.Means d' id 1 := by
  intro hrd
  obtain ⟨n, hn, ht, -⟩ := ha.term.holdsValue
  rw [Build.carryOut, Plan.oneLike, Plan.run_bind]
  refine Attains.after_ok ?_ (run_bind_of_ok (run_node_of_some hn))
  rw [ht]
  refine (attains_one hrd).of_run ?_
  refine (run_carryOut_request hrd (.one S.precision.type)).trans ?_
  rw [perform_eq]
  rfl

/-- A node that passes the test for zero means zero. -/
theorem makes_holdsZero (ha : S.Means d a x) : S.Makes d (Plan.holdsZero a) fun d' answer ↦
      answer = true → d'.Precedes S.last → x = 0 := by
  intro hrd
  obtain ⟨n, hn, -, -⟩ := ha.term.holdsValue
  refine Attains.after_ok (attains_pure hrd.sound fun hans hla ↦ ?_) (run_isZero hn)
  have htm := ha.term
  rw [← ha.denote hla, Graph.denote_extends hla.graph htm.holdsValue.owns]
  exact htm.denote_of_isNeutral hrd.sound hrd.supports.calculates S.interpretation.lawful hans

end Numbers

end Setting

end DiffGraph
