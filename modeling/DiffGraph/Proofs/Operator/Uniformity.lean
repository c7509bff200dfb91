import DiffGraph.Proofs.Draft.Uniformity
import DiffGraph.Proofs.Operator.InStep

/-!
Rules that depend on terms only. Plans that go in step have the same outcome in two drafts wherever
the pairs that they know stand for the same terms (`Plan.InStep.matches`), and a rule of replacement
that goes in step with itself and does not apply in one draft does not apply in the other
(`Plan.InStep.refuses`).

So the standard operators are replaced and differentiated by rules that depend on terms only
(`Registry.standard_uniform`, `Registry.standard_differentiates`), and every operator that is
described by a condition and a formula is replaced by such a rule (`OperatorDescription.uniform`).
-/

set_option autoImplicit false

namespace DiffGraph

open List Stateful Build Draft Registry

variable {ids ids' : List NodeId}

/-- A rule for derivatives that depends on the terms of the operands and of their derivatives
only. -/
def UniformDerivative (rule : List NodeId → List NodeId → Plan NodeId) : Prop :=
  ∀ ⦃first second : Draft⦄ ⦃args args' tangents tangents' : List NodeId⦄
    ⦃perform perform' : Request → Build NodeId⦄, first.Alike second →
    Forall₂ (Same first second) args args' →
    Forall₂ (Same first second) tangents tangents' →
    Performs first.operators perform perform' →
    Matches first second ((rule args tangents).run perform)
      ((rule args' tangents').run perform') Same

/-- The overload is differentiated, if it is, by a rule that depends on terms only. -/
def Overload.Differentiates (ov : Overload) : Prop :=
  ∀ ⦃rule : List NodeId → List NodeId → Plan NodeId⦄, ov.rules.derivative = some rule →
    UniformDerivative rule

def Registry.Differentiates (registry : Registry) : Prop :=
  ∀ ov ∈ registry.overloads, ov.Differentiates

theorem Registry.Differentiates.rule {registry : Registry} (h : registry.Differentiates)
    {name : String} {pos : Nat} {rule : List NodeId → List NodeId → Plan NodeId}
    (hru : ((registry.overload? name pos).bind fun o ↦ o.rules.derivative) = some rule) :
    UniformDerivative rule := by
  obtain ⟨ov, hov, hderivative⟩ := Option.bind_eq_some_iff.mp hru
  exact h ov (mem_of_overload? hov) hderivative

/-- The nodes of each pair stand for the same term. -/
def Draft.PairsUp (first second : Draft) (pairs : List (NodeId × NodeId)) : Prop :=
  ∀ pair ∈ pairs, Same first second pair.1 pair.2

section Pairs

variable {first second : Draft} {k known : List (NodeId × NodeId)} {a b : NodeId} {n m : Node}

theorem Draft.PairsUp.later {first' second' : Draft} (h : first.PairsUp second known)
    (hfst : first.Precedes first') (hsnd : second.Precedes second') :
    first'.PairsUp second' known :=
  fun pair hpair ↦ (h pair hpair).later hfst hsnd

theorem Draft.pairsUp_zip (h : Forall₂ (Same first second) ids ids') :
    first.PairsUp second (ids.zip ids') :=
  fun _ hpair ↦ (forall₂_iff_zip.mp h).2 hpair

theorem Draft.handed_zip (h : Forall₂ (Same first second) ids ids')
    (hkn : ids.zip ids' ⊆ k) : Forall₂ (Plan.Handed false k) ids ids' :=
  forall₂_iff_zip.mpr ⟨h.length_eq, fun hpair ↦ hkn hpair⟩

/-- Names that stand for the same terms correspond one to one. -/
theorem Draft.PairsUp.oneToOne (h : first.PairsUp second k) (hki : first.Kindred second) :
    ∀ p ∈ k, ∀ q ∈ k, p.1 = q.1 ↔ p.2 = q.2 :=
  fun p hp q hq ↦ (h p hp).eq_iff hki.left hki.right (h q hq)

/-- Nodes that stand for the same term resemble each other, and so do their parts. -/
theorem Draft.Same.resemble (h : Same first second a b) :
    ∃ n m, first.graph.node? a = some n ∧ second.graph.node? b = some m ∧ n.Resembles m ∧
      first.PairsUp second (n.parts.zip m.parts) := by
  obtain ⟨n, m, ha, hb, ht, hk⟩ := h.nodes
  have hps : Forall₂ (Same first second) n.parts m.parts := by
    unfold Node.parts
    generalize n.kind = kind at hk
    generalize m.kind = kind' at hk
    cases hk with
    | expression _ hops => exact hops
    | _ => exact .nil
  exact ⟨n, m, ha, hb, ⟨ht, hk.head_eq, hps.length_eq⟩, pairsUp_zip hps⟩

theorem Operand.InStep.same {arg operand' : Operand} (h : arg.InStep k operand')
    (hkn : first.PairsUp second k) : SameOperand first second arg operand' := by
  match arg, operand', h with
  | .node a, .node b, h => exact .node (hkn _ h)
  | .float x, .float _, rfl => exact .float x
  | .int n, .int _, rfl => exact .int n

theorem Request.InStep.same {q request' : Request} (h : q.InStep k request')
    (hkn : first.PairsUp second k) : SameRequest first second q request' := by
  match q, request', h with
  | .apply op _, .apply _ _, ⟨rfl, h⟩ => exact .apply op (h.imp fun _ _ h ↦ h.same hkn)
  | .member _ field, .member _ _, ⟨h, rfl⟩ => exact .member (hkn _ h) field
  | .index _ pos, .index _ _, ⟨h, rfl⟩ => exact .index (hkn _ h) pos
  | .constant t v, .constant _ _, ⟨rfl, rfl⟩ => exact .constant t v
  | .one t, .one _, rfl => exact .one t

end Pairs

namespace Draft

variable {first second : Draft} {a b : NodeId}

/-- Requests that were met with corresponding nodes, or that failed for the same kind of reason. -/
inductive SameAnswer (first second : Draft) : Except Error NodeId → Except Error NodeId → Prop
  | ok {a b : NodeId} (h : Same first second a b) : SameAnswer first second (.ok a) (.ok b)
  | error {e e' : Error} (h : e.Alike e') : SameAnswer first second (.error e) (.error e')

theorem Matches.observe {x y : Build NodeId} (h : Matches first second x y Same) :
    Matches first second (Build.observe x) (Build.observe y) SameAnswer := by
  cases h with
  | ok hx hy hfst hsnd hal hsame =>
    exact .ok (by rw [run_observe, hx]) (by rw [run_observe, hy]) hfst hsnd hal (.ok hsame)
  | error hx hy hfst hsnd hal he =>
    exact .ok (by rw [run_observe, hx]) (by rw [run_observe, hy]) hfst hsnd hal (.error he)

/-- Whether a node is a zero has the same answer for corresponding nodes. -/
theorem Kindred.run_isZero (hki : first.Kindred second) (h : Same first second a b) :
    ∃ answer, (Build.isZero a).run first = (.ok answer, first) ∧
      (Build.isZero b).run second = (.ok answer, second) := by
  obtain ⟨n, m, ha, hb, -⟩ := h.nodes
  exact ⟨_, Build.run_isZero ha, by rw [Build.run_isZero hb, hki.isNeutral_eq .zero h]⟩

theorem Kindred.run_isOne (hki : first.Kindred second) (h : Same first second a b) :
    ∃ answer, (Build.isOne a).run first = (.ok answer, first) ∧
      (Build.isOne b).run second = (.ok answer, second) := by
  obtain ⟨n, m, ha, hb, -⟩ := h.nodes
  exact ⟨_, Build.run_isOne ha, by rw [Build.run_isOne hb, hki.isNeutral_eq .one h]⟩

end Draft

namespace Plan

variable {α β : Type} {k known : List (NodeId × NodeId)} {built : Bool} {first second d' : Draft}
  {perform perform' : Request → Build NodeId}
  {res : Bool → List (NodeId × NodeId) → α → β → Prop}

/-- Plans that go in step have the same outcome in drafts that are alike. -/
theorem InStep.matches {plan : Plan α} {plan' : Plan β}
    (h : InStep Error.Alike res built k plan plan') (hal : first.Alike second)
    (hperforms : Performs first.operators perform perform') (hkn : first.PairsUp second k) :
    Matches first second (plan.run perform) (plan'.run perform') fun d' after' a b ↦
      ∃ built later, d'.PairsUp after' later ∧ res built later a b := by
  induction plan generalizing plan' built k first second with
  | done a =>
    cases plan' with
    | done b => exact matches_pure hal ⟨built, k, hkn, h⟩
    | _ => cases h
  | fail e =>
    cases plan' with
    | fail e' => exact matches_throw hal h
    | _ => cases h
  | build q next ih =>
    cases plan' with
    | build request' next' =>
      refine (hperforms hal rfl (h.1.same hkn)).observe.bind fun hf hs hal hans ↦ ?_
      have hperforms := hf.operators ▸ hperforms
      have hkn := hkn.later hf hs
      cases hans with
      | ok hsame =>
        exact ih _ (h.2.1 _ _) hal hperforms (forall_mem_cons.mpr ⟨hsame, hkn⟩)
      | error he => exact ih _ (h.2.2 _ _ he) hal hperforms hkn
    | _ => cases h
  | inspect a next ih =>
    cases plan' with
    | inspect b next' =>
      obtain ⟨n, m, ha, hb, hlike, hps⟩ := (hkn _ h.1).resemble
      refine .after_ok ?_ (run_node_of_some ha) (run_node_of_some hb)
      exact ih n (h.2 n m hlike) hal hperforms (forall_mem_append.mpr ⟨hps, hkn⟩)
    | _ => cases h
  | isZero a next ih =>
    cases plan' with
    | isZero b next' =>
      obtain ⟨answer, hx, hy⟩ := hal.kindred.run_isZero (hkn _ h.1)
      exact .after_ok (ih _ (h.2 answer) hal hperforms hkn) hx hy
    | _ => cases h
  | isOne a next ih =>
    cases plan' with
    | isOne b next' =>
      obtain ⟨answer, hx, hy⟩ := hal.kindred.run_isOne (hkn _ h.1)
      exact .after_ok (ih _ (h.2 answer) hal hperforms hkn) hx hy
    | _ => cases h

/-- A search that has built something does not end without a node. -/
theorem InStep.run_ne_none {plan plan' : Plan (Option NodeId)}
    (h : InStep (fun _ _ ↦ True) Found true k plan plan') :
    (plan.run perform).run first ≠ (.ok none, d') := by
  intro hr
  induction plan generalizing plan' k first with
  | done m =>
    obtain ⟨rfl, -⟩ := ok_of_run_pure hr
    cases plan' with
    | done found' => cases found' <;> cases h
    | _ => cases h
  | fail e => cases hr
  | build q next ih =>
    obtain ⟨answer, s, hans, hr⟩ := ok_of_run_bind hr
    cases plan' with
    | build request' next' =>
      cases answer with
      | ok a => exact ih _ (h.2.1 a a) hr
      | error e => exact ih _ (h.2.2 e e trivial) hr
    | _ => cases h
  | inspect a next ih =>
    obtain ⟨n, s, -, hr⟩ := ok_of_run_bind hr
    cases plan' with
    | inspect b next' => exact ih n (h.2 n n ⟨rfl, rfl, rfl⟩) hr
    | _ => cases h
  | isZero a next ih =>
    obtain ⟨answer, s, -, hr⟩ := ok_of_run_bind hr
    cases plan' with
    | isZero b next' => exact ih answer (h.2 answer) hr
    | _ => cases h
  | isOne a next ih =>
    obtain ⟨answer, s, -, hr⟩ := ok_of_run_bind hr
    cases plan' with
    | isOne b next' => exact ih answer (h.2 answer) hr
    | _ => cases h

/-- Where a search finds nothing, one that goes in step with it finds nothing either and leaves its
draft as it is: as long as a node can still be missed, only questions have been asked. -/
theorem InStep.refuses {plan plan' : Plan (Option NodeId)}
    (h : InStep (fun _ _ ↦ True) Found false k plan plan') (hki : first.Kindred second)
    (hkn : first.PairsUp second k) (hr : (plan.run perform).run first = (.ok none, d')) :
    (plan'.run perform').run second = (.ok none, second) := by
  induction plan generalizing plan' k with
  | done found =>
    obtain ⟨rfl, -⟩ := ok_of_run_pure hr
    cases plan' with
    | done found' =>
      cases found' with
      | none => rfl
      | some => cases h
    | _ => cases h
  | fail e => cases hr
  | build q next ih =>
    obtain ⟨answer, s, -, hr⟩ := ok_of_run_bind hr
    cases plan' with
    | build request' next' =>
      cases answer with
      | ok a => exact absurd hr (h.2.1 a a).run_ne_none
      | error e => exact absurd hr (h.2.2 e e trivial).run_ne_none
    | _ => cases h
  | inspect a next ih =>
    cases plan' with
    | inspect b next' =>
      obtain ⟨n, m, ha, hb, hlike, hps⟩ := (hkn _ h.1).resemble
      refine (run_bind_of_ok (run_node_of_some hb)).trans ?_
      exact ih n (h.2 n m hlike) (forall_mem_append.mpr ⟨hps, hkn⟩)
        ((run_bind_of_ok (run_node_of_some ha)).symm.trans hr)
    | _ => cases h
  | isZero a next ih =>
    cases plan' with
    | isZero b next' =>
      obtain ⟨answer, hx, hy⟩ := hki.run_isZero (hkn _ h.1)
      exact (run_bind_of_ok hy).trans
        (ih answer (h.2 answer) hkn ((run_bind_of_ok hx).symm.trans hr))
    | _ => cases h
  | isOne a next ih =>
    cases plan' with
    | isOne b next' =>
      obtain ⟨answer, hx, hy⟩ := hki.run_isOne (hkn _ h.1)
      exact (run_bind_of_ok hy).trans
        (ih answer (h.2 answer) hkn ((run_bind_of_ok hx).symm.trans hr))
    | _ => cases h

end Plan

namespace Rules

/-- A rule of replacement that goes in step with itself depends on terms only. -/
theorem ReplacesInStep.uniform {rule : List NodeId → Plan (Option NodeId)}
    (h : ReplacesInStep rule) : UniformRule rule where
  carried hal hops hperforms := by
    have hpairs := pairsUp_zip hops
    have hstep := h (fun e _ ↦ Error.Alike.refl e) (hpairs.oneToOne hal.kindred)
      (handed_zip hops (Subset.refl _))
    refine (hstep.matches hal hperforms hpairs).mono fun {m found' _ _} _ _ _ hla ↦ ?_
    obtain ⟨built, later, hl, hf⟩ := hla
    match m, found', hf with
    | none, none, _ => exact .none
    | some _, some _, hf => exact .some (hl _ hf)
  refused _ hki hops hr := by
    have hpairs := pairsUp_zip hops
    have hstep : Plan.InStep (fun _ _ ↦ True) _ _ _ _ _ := h (fun _ _ ↦ trivial)
      (hpairs.oneToOne hki) (handed_zip hops (Subset.refl _))
    exact hstep.refuses hki hpairs hr

theorem DifferentiatesInStep.uniform {rule : List NodeId → List NodeId → Plan NodeId}
    (h : DifferentiatesInStep rule) : UniformDerivative rule := by
  intro first second args args' tangents tangents' perform perform' hal hops htan hperforms
  have hstep := h (fun e _ ↦ Error.Alike.refl e)
    (handed_zip hops (subset_append_left _ (tangents.zip tangents')))
    (handed_zip htan (subset_append_right _ _))
  refine (hstep.matches hal hperforms ?_).mono fun _ _ _ hla ↦ ?_
  · exact forall_mem_append.mpr ⟨pairsUp_zip hops, pairsUp_zip htan⟩
  · obtain ⟨built, later, hl, hhanded⟩ := hla
    exact hl _ hhanded

end Rules

/-- The standard operators are replaced by rules that depend on terms only. -/
theorem Registry.standard_uniform : Registry.standard.Uniform :=
  fun ov h rule hru ↦ ((standard_inStep ov h).replace rule hru).uniform

/-- The standard operators are differentiated by rules that depend on terms only. -/
theorem Registry.standard_differentiates : Registry.standard.Differentiates :=
  fun ov h rule hru ↦ ((standard_inStep ov h).calculus.1 rule hru).uniform

/-- Operators that are described by conditions and formulas can be added. -/
theorem OperatorDescription.uniform (description : OperatorDescription) :
    description.overload.Uniform := by
  intro rule hru
  obtain ⟨⟨cond, formula⟩, -, rfl⟩ := Option.map_eq_some_iff.mp hru
  exact (replacementPlan_inStep cond formula).uniform

end DiffGraph
