import DiffGraph.Proofs.Operator.InStep

/-!
Confined rules. A rule that goes in step with itself only builds expressions and hands on nodes that
it knows. The rules of the standard operators are of this kind (`Registry.standard_builds`,
`Registry.standard_handsOn`).
-/

set_option autoImplicit false

namespace DiffGraph

variable {ov : Overload}

/-- The nodes of each pair are one node that is known. -/
def Doubles (pairs : List (NodeId × NodeId)) (k : List NodeId) : Prop :=
  ∀ pair ∈ pairs, pair.1 = pair.2 ∧ pair.1 ∈ k

theorem Request.InStep.builds {pairs : List (NodeId × NodeId)} {q : Request}
    (h : q.InStep pairs q) : q.Builds := by
  cases q <;> trivial

theorem Node.doubles_parts (node : Node) : Doubles (node.parts.zip node.parts) node.operands := by
  have hps : node.parts ⊆ node.operands := by
    unfold Node.parts
    split
    next hk => exact fun _ h ↦ by rwa [Node.operands, hk]
    next => exact List.nil_subset _
  intro pair hpair
  exact ⟨(List.forall₂_iff_zip.mp (List.forall₂_eq_eq_eq ▸ rfl)).2 hpair,
    hps (List.of_mem_zip hpair).1⟩

/-- A plan that goes in step with itself is confined to expressions and nodes that it knows. -/
theorem Plan.InStep.confined {α : Type} {built : Bool} {pairs : List (NodeId × NodeId)}
    {known : List NodeId} {res : Bool → List (NodeId × NodeId) → α → α → Prop}
    {handed : List NodeId → α → Prop} {plan : Plan α}
    (h : InStep (fun _ _ ↦ True) res built pairs plan plan) (hpairs : Doubles pairs known)
    (hres : ∀ {built pairs known a}, Doubles pairs known → res built pairs a a → handed known a) :
    plan.Confined Request.Builds handed known := by
  induction plan generalizing built pairs known with
  | done a => exact hres hpairs h
  | fail => trivial
  | build q _ ih =>
    refine ⟨h.1.builds, fun id ↦ ih _ (h.2.1 id id) ?_, fun e ↦ ih _ (h.2.2 e e trivial) hpairs⟩
    refine List.forall_mem_cons.mpr ⟨⟨rfl, List.mem_cons_self⟩, fun pair hpair ↦ ?_⟩
    exact ⟨(hpairs pair hpair).1, List.mem_cons_of_mem id (hpairs pair hpair).2⟩
  | inspect a _ ih =>
    refine fun n ↦ ih n (h.2 n n ⟨rfl, rfl, rfl⟩) fun pair hpair ↦ ?_
    rcases List.mem_append.mp hpair with hp | hold
    · obtain ⟨hsame, hop⟩ := n.doubles_parts pair hp
      exact ⟨hsame, List.mem_append_left _ hop⟩
    · exact ⟨(hpairs pair hold).1, List.mem_append_right _ (hpairs pair hold).2⟩
  | isZero _ _ ih | isOne _ _ ih => exact fun answer ↦ ih answer (h.2 answer) hpairs

section Overloads

open List Plan

variable {args operands : List NodeId}

theorem doubles_map (known : List NodeId) : Doubles (known.map fun id ↦ (id, id)) known := by
  rintro _ hpair
  obtain ⟨id, hid, rfl⟩ := mem_map.mp hpair
  exact ⟨rfl, hid⟩

theorem doubles_oneToOne (k : List NodeId) : ∀ p ∈ k.map fun id ↦ (id, id),
    ∀ q ∈ k.map fun id ↦ (id, id), p.1 = q.1 ↔ p.2 = q.2 := by
  intro p hp q hq
  rw [← (doubles_map _ p hp).1, ← (doubles_map _ q hq).1]

theorem handed_self {k : List NodeId} (h : operands ⊆ k) :
    Forall₂ (Handed false (k.map fun id ↦ (id, id))) operands operands :=
  forall₂_same.mpr fun _ hid ↦ mem_map_of_mem (h hid)

/-- Rules that go in step with themselves build expressions from what they are given. -/
theorem Overload.InStep.buildsFrom (h : ov.InStep) : ov.BuildsFrom where
  replace rule hru operands := by
    refine (h.replace rule hru (fun _ _ ↦ trivial) (doubles_oneToOne operands)
      (handed_self (Subset.refl operands))).confined (doubles_map operands) ?_
    rintro _ _ _ _ hdoubles hf id rfl
    exact (hdoubles _ hf).2
  derivative rule hru operands tangents :=
    (h.calculus.1 rule hru (fun _ _ ↦ trivial) (handed_self (subset_append_left _ _))
      (handed_self (subset_append_right _ _))).confined (doubles_map _)
      fun hdoubles hhanded ↦ (hdoubles _ hhanded).2

end Overloads

theorem Registry.standard_builds : Registry.standard.Builds := by
  intro ov hm
  obtain ⟨hrep, hderivative⟩ := (standard_inStep ov hm).buildsFrom
  exact ⟨fun rule hru args ↦ (hrep rule hru args).mono (fun _ h ↦ h)
      fun _ _ _ _ _ ↦ trivial,
    fun rule hru args tangents ↦ (hderivative rule hru args tangents).mono
      (fun _ h ↦ h) fun _ _ _ ↦ trivial⟩

theorem Registry.standard_handsOn : Registry.standard.HandsOn := by
  intro ov hm
  obtain ⟨hrep, hderivative⟩ := (standard_inStep ov hm).buildsFrom
  exact ⟨fun rule hru args ↦ (hrep rule hru args).mono (fun _ _ ↦ trivial)
      fun _ _ h ↦ h,
    fun rule hru args tangents ↦ (hderivative rule hru args tangents).mono
      (fun _ _ ↦ trivial) fun _ _ h ↦ h⟩

section Requests

open Plan Rules

/-- What the standard rules of replacement ask for: constants and negations. -/
inductive Request.Simple : Request → Prop
  | constant (t : String) (v : Value) : Simple (.constant t v)
  | negation (id : NodeId) : Simple (.apply "-" [.node id])

/-- A rule that asks about a constant before it goes on. -/
theorem Plan.Confined.guard {α : Type} {allowed : Request → Prop} {id : NodeId} {test : Value → Bool}
    {x y : Plan α} (hx : ∀ known, x.Confined allowed (fun _ _ ↦ True) known)
    (hy : ∀ known, y.Confined allowed (fun _ _ ↦ True) known) (known : List NodeId) :
    (Plan.inspect id (fun n ↦ .done (n.constant?.any test)) >>= fun holds ↦
      if holds = true then x else y).Confined allowed (fun _ _ ↦ True) known := by
  intro n
  show Plan.Confined _ _ (if _ then _ else _) _
  split
  · exact hx _
  · exact hy _

/-- A single operand is replaced without any request. -/
theorem Overload.Replaces.asks {t : String} (h : ov.Replaces t)
    {rule : List NodeId → Plan (Option NodeId)} (hru : ov.rules.replace = some rule)
    (args known : List NodeId) :
    (rule args).Confined Request.Simple (fun _ _ ↦ True) known ∧
      (args.length = 1 → (rule args).Confined (fun _ ↦ False) (fun _ _ ↦ True) known) := by
  have hbinary {plan : NodeId → NodeId → Plan (Option NodeId)}
      (hsome : ov.rules.replace = some (binaryPlan plan))
      (hplan : ∀ a b known, (plan a b).Confined Request.Simple (fun _ _ ↦ True) known) :
      (rule args).Confined Request.Simple (fun _ _ ↦ True) known ∧
        (args.length = 1 → (rule args).Confined (fun _ ↦ False) (fun _ _ ↦ True) known) := by
    cases hsome.symm.trans hru
    match args with
    | [] | [_] | _ :: _ :: _ :: _ => exact ⟨trivial, fun _ ↦ trivial⟩
    | [a, b] => exact ⟨hplan a b known, fun h ↦ by cases h⟩
  have hno (known : List NodeId) : (pure none : Plan (Option NodeId)).Confined Request.Simple
      (fun _ _ ↦ True) known := trivial
  have hsome (id : NodeId) (known : List NodeId) : (pure (some id) : Plan (Option NodeId)).Confined
      Request.Simple (fun _ _ ↦ True) known := trivial
  have hz (id : NodeId) (known : List NodeId) : (do return some (← Plan.zeroLike id) :
      Plan (Option NodeId)).Confined Request.Simple (fun _ _ ↦ True) known :=
    fun n ↦ ⟨.constant n.type .zero, fun _ ↦ trivial, fun _ ↦ trivial⟩
  cases h with
  | addition _ _ hadd => exact hbinary hadd fun a b ↦ .guard (hsome a) (.guard (hsome b) hno)
  | subtraction _ _ hsub =>
    refine hbinary hsub fun a b ↦ .guard (hsome a) (.guard ?_ fun known ↦ ?_)
    · exact fun known ↦ ⟨.negation b, fun _ ↦ trivial, fun _ ↦ trivial⟩
    · split
      · exact hz a known
      · exact hno known
  | negation _ _ hneg =>
    cases hneg.symm.trans hru
    match args with
    | [] | _ :: _ :: _ => exact ⟨trivial, fun _ ↦ trivial⟩
    | [a] =>
      refine ⟨fun n ↦ ?_, fun _ n ↦ ?_⟩ <;>
      · dsimp only [Plan.bind]
        split <;> trivial
  | multiplication _ _ hmul =>
    exact hbinary hmul fun a b ↦ .guard (hz a) (.guard (hz a) (.guard (hsome a)
      (.guard (hsome b) hno)))
  | division _ _ hdiv => exact hbinary hdiv fun a b ↦ .guard (hsome a) (.guard (hsome a) hno)
  | unary _ hunary => cases hunary.symm.trans hru
  | binary _ ho => cases ho.symm.trans hru

end Requests

end DiffGraph
