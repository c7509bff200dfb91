import Mathlib.Algebra.BigOperators.Group.List.Basic
import DiffGraph.Proofs.Draft.ChainRules
import DiffGraph.Proofs.Draft.Numbers
import DiffGraph.Proofs.Draft.Sweeps

/-!
Gradients flow back without loss. During the sweep an amount has gathered at every node: the total of
the node once that was taken, and before that the contributions that wait to be summed up. A node
that is dealt with passes on what has gathered at it; weighted with the derivatives of the nodes, what
arrives is what was passed on, because the rule for gradients of an operator is adjoint to its rule
for derivatives. So the weighted sum over all nodes is at any time the sum of what was passed on so
far (`Balanced.run`), and in the end what arrived at the reads is what was sent out from the written
addresses (`Balanced.gathered_read`).
-/

set_option autoImplicit false

namespace DiffGraph

open Stateful Draft Build Reverse Option List

variable {t : String} {d draft : Draft} {n : Node} {id addr : NodeId} {prec : Precision}
  {done amounts args : List NodeId} {way : AccessPath}

theorem Draft.HasType.unique {other : String} (h : d.HasType id t)
    (ho : d.HasType id other) : t = other := by
  obtain ⟨n, hn, rfl⟩ := h
  obtain ⟨m, hf, rfl⟩ := ho
  exact congrArg Node.type (some.inj (hn.symm.trans hf))

/-- Numbers have an addition of their own. -/
theorem Draft.Supports.run_sum (hsup : draft.Supports prec) {a b : NodeId}
    (ha : draft.HasType a prec.type) (hb : draft.HasType b prec.type) :
    (Build.sum a b).run draft = (Build.apply "+" [.node a, .node b]).run draft := by
  obtain ⟨first, hfst, hfirstType⟩ := ha
  obtain ⟨second, hsnd, hsecondType⟩ := hb
  have hrv : (draft.operators.resolve "+" [first.type, second.type]).isSome = true := by
    rw [hfirstType, hsecondType, hsup.operators]
    exact Precision.resolve_arithmetic hsup.standard "+" mem_cons_self
  rw [Build.sum, run_get_bind, Build.sumWithin, run_bind_of_ok (run_typeOf_of_some hfst),
    run_bind_of_ok (run_typeOf_of_some hsnd), run_get_bind, if_pos hrv]

namespace Setting

variable {F : Type} [Field F] {S : Setting F}

section Sums

variable {a b : NodeId} {x y : F}

theorem attains_sum (hrd : S.Ready d) (ha : S.Means d a x) (hb : S.Means d b y) :
    d.Attains (Build.sum a b) (S.limit < 2) fun d' id ↦ S.Means d' id (x + y) := by
  have hnb {id : NodeId} {z : F} (h : S.Means d id z) : d.HasType id S.precision.type := by
    obtain ⟨n, hn, ht, -⟩ := h.term.holdsValue
    exact ⟨n, hn, ht⟩
  refine (makes_add ha hb hrd).of_run ?_
  rw [hrd.supports.run_sum (hnb ha) (hnb hb), Plan.add, Plan.apply,
    run_carryOut_request hrd, Build.apply, Build.request, run_get_bind, hrd.limit]

theorem attains_foldlM_sum (hrd : S.Ready d) (ha : S.Means d a x)
    (hamounts : ∀ c ∈ amounts, d.Term S.precision.type c) :
    d.Attains (amounts.foldlM Build.sum a) (S.limit < 2) fun d' id ↦
      S.Means d' id (x + (amounts.map S.value).sum) := by
  induction amounts generalizing d a x with
  | nil =>
    rw [map_nil, sum_nil, add_zero]
    exact attains_pure hrd.sound ha
  | cons c amounts ih =>
    obtain ⟨ham, hos⟩ := forall_mem_cons.mp hamounts
    rw [foldlM_cons, map_cons, sum_cons, ← add_assoc]
    refine (attains_sum hrd ha (means_value ham)).bind fun hpr hs hsum ↦ ?_
    exact ih (hrd.later hpr hs) hsum fun other ho ↦ (hos other ho).later hpr

/-- Contributions of numbers are summed up to a number. -/
theorem attains_sumUp (hrd : S.Ready d) (hid : d.HasType id S.precision.type)
    (hamounts : ∀ c ∈ amounts, d.Term S.precision.type c) :
    d.Attains (Reverse.sumUp id amounts) (S.limit < 2) fun d' total ↦
      S.Means d' total (amounts.map S.value).sum := by
  cases amounts with
  | nil =>
    obtain ⟨n, hn, ht⟩ := hid
    refine Attains.after_ok ?_ (run_typeOf_of_some hn)
    rw [ht]
    exact attains_zero hrd
  | cons first rest =>
    obtain ⟨hfst, hos⟩ := forall_mem_cons.mp hamounts
    rw [map_cons, sum_cons]
    exact attains_foldlM_sum hrd (means_value hfst) hos

end Sums

section Gathering

variable (S) (acc : Accumulator) {tgt c amount total : NodeId}

/-- What has arrived at a node. -/
def gathered (id : NodeId) : F :=
  match acc.totals[id]? with
  | some total => S.value total
  | none => ((acc.pending id).map S.value).sum

theorem gathered_of_total (h : acc.totals[tgt]? = some total) :
    S.gathered acc tgt = S.value total := by
  rw [gathered, h]

theorem gathered_empty (id : NodeId) : S.gathered .empty id = 0 := by
  rw [gathered, Accumulator.totals_empty, Accumulator.pending_empty]
  rfl

/-- What is added arrives at its target and nowhere else. -/
theorem gathered_add (hopen : acc.totals[tgt]? = none) (id : NodeId) :
    S.gathered (acc.add tgt c) id = S.gathered acc id + if id = tgt then S.value c else 0 := by
  rw [gathered, gathered, Accumulator.totals_add, Accumulator.pending_add]
  by_cases h : id = tgt
  · subst h
    simp [hopen]
  · simp [h, Ne.symm h]

/-- Taking a total moves nothing. -/
theorem gathered_close (htot : S.value total = S.gathered acc tgt) (id : NodeId) :
    S.gathered (acc.close tgt total) id = S.gathered acc id := by
  by_cases h : tgt = id
  · subst h
    rw [gathered, Accumulator.totals_close, if_pos rfl]
    exact htot
  · rw [gathered, gathered, Accumulator.totals_close, if_neg h, Accumulator.pending_close, if_neg h]

end Gathering

variable (S)

/-- Amounts are numbers of the types of the nodes at which they have arrived. The interpretation is
exact on all functions that rules call. -/
structure Holds (sw : Sweep) : Prop where
  calls : ∀ name, Precision.calls name ⊆ S.functions
  sound : sw.draft.Sound
  limit : sw.draft.options.replacementLimit = S.limit
  terms : sw.accumulator.Relates fun id c ↦
    ∃ t, sw.draft.HasType id t ∧ sw.draft.Term t c

/-- A stretch of the sweep in which all that has gathered stays where it is. -/
structure Rests (sw d' : Sweep) : Prop where
  grows : sw.draft.Grows d'.draft
  kept : ∀ ⦃id total : NodeId⦄, sw.accumulator.totals[id]? = some total →
    d'.accumulator.totals[id]? = some total
  gathered : d'.draft.Precedes S.last → ∀ id,
    S.gathered d'.accumulator id = S.gathered sw.accumulator id

variable (path : AccessPath) (order : List NodeId)

/-- What has gathered at the nodes, weighted with their derivatives. -/
def weighted (acc : Accumulator) : F :=
  (order.map fun id ↦ S.gathered acc id * S.slopeAt path id).sum

/-- A stretch of the sweep in which the amount, as a weighted sum, is added to what was there.
Nothing arrives at an address. -/
structure Carries (sw d' : Sweep) (c : F) : Prop where
  grows : sw.draft.Grows d'.draft
  kept : ∀ ⦃id total : NodeId⦄, sw.accumulator.totals[id]? = some total →
    d'.accumulator.totals[id]? = some total
  spared : d'.draft.Precedes S.last → ∀ ⦃id : NodeId⦄ ⦃t : String⦄ ⦃way : AccessPath⦄,
    sw.draft.Locates id t way →
      S.gathered d'.accumulator id = S.gathered sw.accumulator id
  gained : d'.draft.Precedes S.last →
    S.weighted path order d'.accumulator = S.weighted path order sw.accumulator + c

variable {S path order} {sw sweep middle d' : Sweep} {tgt c amount : NodeId} {x y : F}

theorem Rests.refl (sweep : Sweep) : S.Rests sweep sweep := ⟨.refl _, fun _ _ h ↦ h, fun _ _ ↦ rfl⟩

theorem Rests.carries (h : S.Rests sw d') : S.Carries path order sw d' 0 where
  grows := h.grows
  kept := h.kept
  spared hla _ _ _ _ := h.gathered hla _
  gained hla := by simp only [weighted, h.gathered hla, add_zero]

theorem Carries.precedes (h : S.Carries path order sw d' x) :
    sw.draft.Precedes d'.draft := h.grows.toPrecedes

theorem Carries.trans (hfst : S.Carries path order sw middle x)
    (hla : S.Carries path order middle d' y) : S.Carries path order sw d' (x + y) where
  grows := hfst.grows.trans hla.grows
  kept _ _ h := hla.kept (hfst.kept h)
  spared hpr _ _ _ hpl := by
    rw [hla.spared hpr (hpl.later hfst.precedes), hfst.spared (hla.precedes.trans hpr) hpl]
  gained hpr := by
    rw [hla.gained hpr, hfst.gained (hla.precedes.trans hpr), add_assoc]

theorem Carries.of_eq (h : S.Carries path order sw d' x)
    (heq : d'.draft.Precedes S.last → x = y) : S.Carries path order sw d' y :=
  { h with gained := fun hla ↦ heq hla ▸ h.gained hla }

/-- A change of the draft alone. -/
theorem Holds.onDraft (h : S.Holds sw) (hpr : sw.draft.Precedes d)
    (hs : d.Sound) : S.Holds ⟨d, sw.accumulator⟩ where
  calls := h.calls
  sound := hs
  limit := (congrArg _ hpr.options).trans h.limit
  terms := h.terms.imp fun ⟨t, ht, htm⟩ ↦ ⟨t, ht.later hpr, htm.later hpr⟩

theorem rests_onDraft (hgr : sw.draft.Grows d) : S.Rests sw ⟨d, sw.accumulator⟩ :=
  ⟨hgr, fun _ _ h ↦ h, fun _ _ ↦ rfl⟩

theorem Holds.ready (h : S.Holds sw) (hsup : sw.draft.Supports prec) :
    (S.within prec).Ready sw.draft :=
  ⟨h.sound, hsup, h.limit⟩

section Outflow

variable (S path) (acc : Accumulator)

/-- What a node passes on, as a weighted sum. -/
def outflow (id : NodeId) : F :=
  match (S.last.graph.node? id).map Node.kind with
  | some (.write addr v) => S.gathered acc addr * S.slopeAt path v
  | some (.expression ..) => S.gathered acc id * S.slopeAt path id
  | _ => 0

variable {S path} (hn : S.last.graph.node? id = some n)
include hn

theorem outflow_write {value : NodeId} (hk : n.kind = .write addr value) :
    S.outflow path acc id = S.gathered acc addr * S.slopeAt path value := by
  rw [outflow, hn, map_some, hk]

theorem outflow_expression {op : Operator} (hk : n.kind = .expression op args) :
    S.outflow path acc id = S.gathered acc id * S.slopeAt path id := by
  rw [outflow, hn, map_some, hk]

theorem outflow_constant {v : Value} (hk : n.kind = .constant v) : S.outflow path acc id = 0 := by
  rw [outflow, hn, map_some, hk]

theorem outflow_read (hk : n.kind = .read addr) : S.outflow path acc id = 0 := by
  rw [outflow, hn, map_some, hk]

omit hn

/-- Addresses do not vary. -/
theorem slopeAt_place (h : S.last.Locates id t way) : S.slopeAt path id = 0 := by
  rw [slopeAt, Interpretation.tangent]
  cases h with
  | argument hn _ hk => simp only [Graph.denote_of_node? hn, hk, Prod.snd_zero]
  | @part _ _ _ op _ _ _ _ hsl hn _ hk =>
    cases op with
    | registered | construct => cases hsl
    | member | index => simp only [Graph.denote_of_node? hn, hk, Prod.snd_zero]

theorem outflow_place (h : S.last.Locates id t way) : S.outflow path acc id = 0 := by
  have hslope : S.slopeAt path id = 0 := slopeAt_place h
  cases h with
  | argument hn _ hk => rw [outflow, hn, map_some, hk]
  | part _ _ hn _ hk => rw [outflow_expression acc hn hk, hslope, mul_zero]

end Outflow

variable (S path order) in
/-- However the sweep goes on, the node passes on what it has passed on by now. -/
def Settled (sw : Sweep) (id : NodeId) : Prop :=
  ∀ ⦃d' : Sweep⦄ ⦃x : F⦄, S.Carries path order sw d' x → d'.draft.Precedes S.last →
    S.outflow path d'.accumulator id = S.outflow path sw.accumulator id

theorem Settled.later (h : S.Settled path order sw id)
    (hcar : S.Carries path order sw d' x) : S.Settled path order d' id := by
  intro last y hl hla
  rw [h (hcar.trans hl) hla, h hcar (hl.precedes.trans hla)]

theorem Carries.gathered_eq (h : S.Carries path order sw d' x) {total : NodeId}
    (htot : sw.accumulator.totals[id]? = some total) :
    S.gathered d'.accumulator id = S.gathered sw.accumulator id := by
  rw [gathered_of_total S _ htot, gathered_of_total S _ (h.kept htot)]

section Steps

/-- An amount that is pushed arrives at its target, unless that is a constant. -/
theorem Holds.push (h : S.Holds sw) (ht : sw.draft.HasType tgt t) (htm : sw.draft.Term t c)
    (hr : (Reverse.push tgt c).run sw = (.ok ⟨⟩, d')) :
    S.Holds d' ∧ d'.draft = sw.draft ∧ d'.accumulator.totals = sw.accumulator.totals ∧ ((∃ n v,
        sw.draft.graph.node? tgt = some n ∧ n.kind = .constant v ∧ d' = sw) ∨
      ∀ id, S.gathered d'.accumulator id =
        S.gathered sw.accumulator id + if id = tgt then S.value c else 0) := by
  obtain ⟨n, hn, -, hopen, rfl⟩ := ok_of_run_push hr
  by_cases hc : n.constant?.isSome = true
  · rw [if_pos hc]
    obtain ⟨v, hv⟩ := isSome_iff_exists.mp hc
    exact ⟨h, rfl, rfl, .inl ⟨n, v, hn, Node.kind_of_constant? hv, rfl⟩⟩
  · rw [if_neg hc]
    exact ⟨⟨h.calls, h.sound, h.limit, h.terms.add ⟨t, ht, htm⟩⟩, rfl, rfl,
      .inr (gathered_add S _ hopen)⟩

/-- A total is the number that has gathered. -/
theorem Holds.total (h : S.Holds sw) (hsup : sw.draft.Supports prec)
    (hid : sw.draft.HasType id prec.type) (hr : (Reverse.total id).run sw = (.ok amount, d')) :
    S.Holds d' ∧ S.Rests sw d' ∧ d'.draft.Term prec.type amount ∧
      d'.accumulator.totals[id]? = some amount ∧
        (d'.draft.Precedes S.last → S.value amount = S.gathered sw.accumulator id) := by
  rcases ok_of_run_total hr with ⟨hkn, rfl⟩ | ⟨hopen, d, hsum, rfl⟩
  · obtain ⟨t, ht, htm⟩ := h.terms.totals hkn
    rw [ht.unique hid] at htm
    exact ⟨h, .refl _, htm, hkn, fun _ ↦ (S.gathered_of_total _ hkn).symm⟩
  · have hamounts : ∀ other ∈ sw.accumulator.pending id, sw.draft.Term prec.type other := by
      intro other ho
      obtain ⟨t, ht, htm⟩ := h.terms.pending ho
      exact ht.unique hid ▸ htm
    obtain ⟨hgr, hs, htm, hv⟩ := (attains_sumUp (h.ready hsup) hid hamounts).of_ok hsum
    have hv (hla : d.Precedes S.last) : S.value amount = S.gathered sw.accumulator id := by
      rw [gathered, hopen]
      exact hv hla
    have hl := h.onDraft hgr.toPrecedes hs
    have hcl : (sw.accumulator.close id amount).totals[id]? = some amount := by
      rw [Accumulator.totals_close, if_pos rfl]
    refine ⟨⟨h.calls, hs, hl.limit, hl.terms.close ⟨_, hid.later hgr.toPrecedes, htm⟩⟩,
      ⟨hgr, fun other total htot ↦ ?_, fun hla ↦ S.gathered_close _ (hv hla)⟩, htm,
      hcl, hv⟩
    rw [Accumulator.totals_close, if_neg]
    · exact htot
    · rintro rfl
      cases hopen.symm.trans htot

variable (path)

/-- What is pushed to a value is weighted with the derivative of the value. Constants take nothing,
and do not vary. -/
theorem Holds.carries_push (h : S.Holds sw) (hnd : order.Nodup) (htg : tgt ∈ order)
    (hv : sw.draft.HoldsValue tgt t) (htm : sw.draft.Term t c)
    (hr : (Reverse.push tgt c).run sw = (.ok ⟨⟩, d')) :
    S.Holds d' ∧ S.Carries path order sw d' (S.value c * S.slopeAt path tgt) := by
  obtain ⟨n, hn, ht, haddr⟩ := hv
  obtain ⟨haf, hd, htotals, ⟨m, v, hf, hk, rfl⟩ | hgathered⟩ := h.push ⟨n, hn, ht⟩ htm hr
  · refine ⟨haf, (Rests.refl _).carries.of_eq fun hla ↦ ?_⟩
    rw [slopeAt, S.interpretation.tangent_constant path (hla.graph.node? hf) hk, mul_zero]
  · refine ⟨haf, ⟨hd ▸ .refl _, fun _ _ h ↦ htotals ▸ h, fun _ id _ _ hpl ↦ ?_, fun _ ↦ ?_⟩⟩
    · rw [hgathered, if_neg, add_zero]
      rintro rfl
      obtain ⟨other, ho, -, hotherAddress⟩ := hpl.node?
      cases hn.symm.trans ho
      cases haddr.symm.trans hotherAddress
    · have hshare (id : NodeId) : S.gathered d'.accumulator id * S.slopeAt path id =
          S.gathered sw.accumulator id * S.slopeAt path id +
            if id = tgt then S.value c * S.slopeAt path id else 0 := by
        rw [hgathered, add_mul, ite_mul, zero_mul]
      simp only [weighted, hshare, sum_map_add]
      rw [sum_map_ite_eq, count_eq_one_of_mem hnd htg]
      simp

/-- Amounts that are pushed one after another. -/
theorem Holds.pushAll (h : S.Holds sw) (hnd : order.Nodup) {flows : List Contribution}
    (hflows : ∀ flow ∈ flows, flow.target ∈ order ∧ sw.draft.HoldsValue flow.target t ∧ sw.draft.Term t flow.amount)
    (hr : (flows.forM fun flow ↦ Reverse.push flow.target flow.amount).run sw = (.ok ⟨⟩, d')) :
    S.Holds d' ∧ S.Carries path order sw d'
      (flows.map fun flow ↦ S.value flow.amount * S.slopeAt path flow.target).sum := by
  induction flows generalizing sw with
  | nil =>
    obtain ⟨-, rfl⟩ := ok_of_run_pure hr
    exact ⟨h, (Rests.refl _).carries⟩
  | cons flow flows ih =>
    obtain ⟨⟨htg, hv, htm⟩, hos⟩ := forall_mem_cons.mp hflows
    obtain ⟨middle, hfst, hrs⟩ := ok_of_run_forM_cons hr
    obtain ⟨hmid, hcar⟩ := h.carries_push path hnd htg hv htm hfst
    obtain ⟨haf, hcarries'⟩ := ih hmid (fun other ho ↦ (hos other ho).imp_right fun ⟨hv, htm⟩ ↦
        ⟨hv.later hcar.precedes, htm.later hcar.precedes⟩) hrs
    rw [map_cons, sum_cons]
    exact ⟨haf, hcar.trans hcarries'⟩

/-- The gradient of an operator is split up among its operands. -/
theorem Holds.throughRegistered (h : S.Holds sw) (hnd : order.Nodup)
    (hsup : sw.draft.Supports prec) {name : String} {pos : Nat}
    (hn : sw.draft.graph.node? id = some n) (hk : n.kind = .expression (.registered name pos) args)
    (htms : ∀ arg ∈ args, sw.draft.Term prec.type arg)
    (hops : ∀ arg ∈ args, arg ∈ order) {gradient : NodeId}
    (hgrad : sw.draft.Term prec.type gradient)
    (hr : (Reverse.throughExpression t (.registered name pos) args gradient).run sw = (.ok ⟨⟩, d')) :
    S.Holds d' ∧ S.Carries path order sw d' (S.value gradient * S.slopeAt path id) := by
  obtain ⟨ov, rfl, hov, hacc, hrv⟩ := h.sound.resolve_of_terms hsup.operators hn hk htms
  obtain ⟨rule, hru, hpropagates⟩ := (chainRules (S := S.within prec) ov
    (hsup.mem_operators hrv) (h.calls ov.name)).propagates
  have hmeans : List.Forall₂ ((S.within prec).Means sw.draft) args (args.map S.value) := by
    refine forall₂_map_right_iff.mpr (forall₂_same.mpr fun arg hop ↦ ?_)
    exact means_value (S := S.within prec) (htms arg hop)
  have hmakes := hpropagates hacc hmeans (means_value (S := S.within prec) hgrad)
  rw [Reverse.throughExpression, run_get_bind, hov, bind_some, hru] at hr
  dsimp only at hr
  obtain ⟨flows, middle, hd, hpu⟩ := ok_of_run_bind hr
  obtain ⟨d, hcarryOut, rfl⟩ := ok_of_run_onDraft hd
  obtain ⟨hgr, hs, hflows⟩ := (hmakes (h.ready hsup)).of_ok hcarryOut
  have hpr := hgr.toPrecedes
  obtain ⟨haf, hcar⟩ := (h.onDraft hpr hs).pushAll path hnd (fun flow hflow ↦
      have htg := hflows.targets flow hflow
      ⟨hops _ htg, ((htms _ htg).later hpr).holdsValue, hflows.amounts flow hflow⟩) hpu
  refine ⟨haf, ((rests_onDraft hgr).carries.trans hcar).of_eq fun hla ↦ ?_⟩
  have hl := hpr.trans (hcar.precedes.trans hla)
  have hslope : S.slopeAt path id = _ :=
    S.interpretation.tangent_registered path (hl.graph.node? hn) hk
  rw [zero_add, hslope]
  exact hflows.total (hcar.precedes.trans hla) (S.slopeAt path)

/-- A node that is dealt with passes on what has gathered at it. -/
theorem Holds.backward (h : S.Holds sweep) (hnd : order.Nodup) (hid : sweep.draft.Numeric id)
    (hops : ∀ arg ∈ sweep.draft.graph.operands id, arg ∈ order)
    (hr : (Reverse.backward id).run sweep = (.ok ⟨⟩, d')) :
    S.Holds d' ∧ S.Carries path order sweep d' (S.outflow path d'.accumulator id) ∧
      S.Settled path order d' id := by
  -- A node that passes nothing on, now or later.
  have hno (haf : S.Holds d') (hcar : S.Carries path order sweep d' 0)
      (hz : d'.draft.Precedes S.last → ∀ acc, S.outflow path acc id = 0) :
      S.Holds d' ∧ S.Carries path order sweep d' (S.outflow path d'.accumulator id) ∧
        S.Settled path order d' id := by
    refine ⟨haf, hcar.of_eq fun hla ↦ (hz hla _).symm, fun last y hl hla ↦ ?_⟩
    rw [hz (hl.precedes.trans hla), hz (hl.precedes.trans hla)]
  rw [Reverse.backward] at hr
  cases hid with
  | place hpl =>
    obtain ⟨n, hn, -, haddr⟩ := hpl.node?
    rw [run_bind_of_ok (run_onDraft (run_node_of_some hn))] at hr
    have haf : d' = sweep := by
      cases hpl with
      | argument hf _ hk =>
        cases hn.symm.trans hf
        rw [hk] at hr
        exact (ok_of_run_pure hr).2
      | part _ _ hf _ hk =>
        cases hn.symm.trans hf
        rw [hk, haddr] at hr
        exact (ok_of_run_pure hr).2
    subst haf
    exact hno h (Rests.refl _).carries fun hla acc ↦ outflow_place acc (hpl.later hla)
  | @value prec hsup htm =>
    cases htm with
    | constant hst =>
      obtain ⟨n, hn, -, hk, -⟩ := hst
      rw [run_bind_of_ok (run_onDraft (run_node_of_some hn)), hk] at hr
      obtain ⟨-, rfl⟩ := ok_of_run_pure hr
      exact hno h (Rests.refl _).carries fun hla acc ↦ outflow_constant acc (hla.graph.node? hn) hk
    | read hn ht _ hk =>
      rw [run_bind_of_ok (run_onDraft (run_node_of_some hn)), hk] at hr
      obtain ⟨total, middle, htot, hret⟩ := ok_of_run_bind hr
      obtain ⟨-, rfl⟩ := ok_of_run_pure hret
      obtain ⟨haf, hrests, -⟩ := h.total hsup ⟨_, hn, ht⟩ htot
      exact hno haf hrests.carries fun hla acc ↦
        outflow_read acc ((hrests.grows.toPrecedes.trans hla).graph.node? hn) hk
    | @registered _ n name pos operands hn ht haddr hk htms =>
      rw [run_bind_of_ok (run_onDraft (run_node_of_some hn)), hk, haddr] at hr
      obtain ⟨gradient, middle, htot, hthrough⟩ := ok_of_run_bind hr
      obtain ⟨hmid, hrests, hgrad, hkn, -⟩ := h.total hsup ⟨n, hn, ht⟩ htot
      have hpr := hrests.grows.toPrecedes
      have hls : sweep.draft.graph.operands id = operands := by
        rw [Graph.operands_of_node? hn, Node.operands, hk]
        rfl
      obtain ⟨haf, hcarries'⟩ := hmid.throughRegistered path hnd
        (hsup.later hpr) (hpr.graph.node? hn) hk
        (fun arg hop ↦ (htms arg hop).later hpr)
        (hls ▸ hops) hgrad hthrough
      have hcl := hcarries'.kept hkn
      refine ⟨haf, (hrests.carries.trans hcarries').of_eq fun hla ↦ ?_, fun last y hl hla ↦ ?_⟩
      · have hl := hpr.trans (hcarries'.precedes.trans hla)
        rw [outflow_expression _ (hl.graph.node? hn) hk, gathered_of_total S _ hcl, zero_add]
      · have hla := hpr.trans (hcarries'.precedes.trans (hl.precedes.trans hla))
        rw [outflow_expression _ (hla.graph.node? hn) hk,
          outflow_expression _ (hla.graph.node? hn) hk, hl.gathered_eq hcl]
  | @write addr value n prec way hn hk hsup hpl hv =>
    rw [run_bind_of_ok (run_onDraft (run_node_of_some hn)), hk] at hr
    obtain ⟨gradient, middle, htot, hpu⟩ := ok_of_run_bind hr
    obtain ⟨tgt, htg, ht, -⟩ := hpl.node?
    obtain ⟨hmid, hrests, hgrad, hkn, -⟩ := h.total hsup ⟨tgt, htg, ht⟩ htot
    have hpr := hrests.grows.toPrecedes
    have hls : value ∈ sweep.draft.graph.operands id := by
      rw [Graph.operands_of_node? hn, Node.operands, hk]
      exact mem_cons_of_mem _ mem_cons_self
    obtain ⟨haf, hcarries'⟩ := hmid.carries_push path hnd (hops value hls)
      (hv.later hpr).holdsValue hgrad hpu
    have hcl := hcarries'.kept hkn
    refine ⟨haf, (hrests.carries.trans hcarries').of_eq fun hla ↦ ?_, fun last y hl hla ↦ ?_⟩
    · have hl := hpr.trans (hcarries'.precedes.trans hla)
      rw [outflow_write _ (hl.graph.node? hn) hk, gathered_of_total S _ hcl, zero_add]
    · have hla := hpr.trans (hcarries'.precedes.trans (hl.precedes.trans hla))
      rw [outflow_write _ (hla.graph.node? hn) hk,
        outflow_write _ (hla.graph.node? hn) hk, hl.gathered_eq hcl]

end Steps

variable (S path order) in
/-- The nodes that were dealt with have passed on all there is. -/
structure Balanced (done : List NodeId) (sw : Sweep) : Prop where
  holds : S.Holds sw
  settled : ∀ id ∈ done, S.Settled path order sw id
  balance : sw.draft.Precedes S.last → S.weighted path order sw.accumulator =
    (done.map (S.outflow path sw.accumulator)).sum

theorem Balanced.step (h : S.Balanced path order done sw) (hnd : order.Nodup)
    (hid : sw.draft.Numeric id) (hops : ∀ arg ∈ sw.draft.graph.operands id, arg ∈ order)
    (hr : (Reverse.backward id).run sw = (.ok ⟨⟩, d')) :
    S.Balanced path order (done ++ [id]) d' ∧ ∃ x, S.Carries path order sw d' x := by
  obtain ⟨haf, hcar, hsettled⟩ := h.holds.backward path hnd hid hops hr
  refine ⟨⟨haf, fun other ho ↦ ?_, fun hla ↦ ?_⟩, _, hcar⟩
  · rcases mem_append.mp ho with ho | ho
    · exact (h.settled other ho).later hcar
    · exact mem_singleton.mp ho ▸ hsettled
  · have hsame : done.map (S.outflow path d'.accumulator) =
        done.map (S.outflow path sw.accumulator) :=
      map_congr_left fun other ho ↦ h.settled other ho hcar hla
    rw [hcar.gained hla, h.balance (hcar.precedes.trans hla), map_append,
      sum_append, hsame, map_singleton, sum_singleton]

/-- The sweep as a whole. -/
theorem Balanced.run {ids : List NodeId} (h : S.Balanced path order done sw)
    (hnd : order.Nodup) (hids : ∀ id ∈ ids, sw.draft.Numeric id)
    (hops : ∀ id ∈ ids, ∀ arg ∈ sw.draft.graph.operands id, arg ∈ order)
    (hr : (ids.forM Reverse.backward).run sw = (.ok ⟨⟩, d')) :
    S.Balanced path order (done ++ ids) d' ∧ ∃ x, S.Carries path order sw d' x := by
  induction ids generalizing done sw with
  | nil =>
    obtain ⟨-, rfl⟩ := ok_of_run_pure hr
    exact ⟨by rwa [append_nil], _, (Rests.refl _).carries⟩
  | cons id ids ih =>
    obtain ⟨hid, hos⟩ := forall_mem_cons.mp hids
    obtain ⟨hops, hothersOperands⟩ := forall_mem_cons.mp hops
    obtain ⟨middle, hfst, hrs⟩ := ok_of_run_forM_cons hr
    obtain ⟨hmid, x, hcar⟩ := h.step hnd hid hops hfst
    obtain ⟨haf, y, hcarries'⟩ := ih hmid (fun other ho ↦ (hos other ho).later hcar.precedes)
      (fun other ho ↦ (hos other ho).operands_eq hcar.precedes ▸ hothersOperands other ho) hrs
    rw [append_cons]
    exact ⟨haf, _, hcar.trans hcarries'⟩

section Reads

variable (S path) (acc : Accumulator)

/-- What a write passes on, as a weighted sum. -/
def sent (id : NodeId) : F :=
  match (S.last.graph.node? id).map Node.kind with
  | some (.write addr v) => S.gathered acc addr * S.slopeAt path v
  | _ => 0

/-- What has arrived at a read, as a weighted sum. -/
def received (id : NodeId) : F :=
  match (S.last.graph.node? id).map Node.kind with
  | some (.read _) => S.gathered acc id * S.slopeAt path id
  | _ => 0

/-- What arrives at a node stays there or is passed on, and only writes pass on more. -/
theorem received_add_outflow (h : S.last.Numeric id) :
    S.received path acc id + S.outflow path acc id =
      S.gathered acc id * S.slopeAt path id + S.sent path acc id := by
  have hk {n : Node} (hn : S.last.graph.node? id = some n) :
      (S.last.graph.node? id).map Node.kind = some n.kind := by rw [hn, map_some]
  cases h with
  | place hpl =>
    have hslope : S.slopeAt path id = 0 := slopeAt_place hpl
    rw [outflow_place acc hpl, hslope, mul_zero]
    cases hpl with
    | argument hn _ harg => simp [received, sent, hk hn, harg]
    | part _ _ hn _ hp => simp [received, sent, hk hn, hp]
  | value _ htm =>
    cases htm with
    | constant hst =>
      obtain ⟨n, hn, -, hc, -⟩ := hst
      have hslope : S.slopeAt path id = 0 := S.interpretation.tangent_constant path hn hc
      rw [outflow_constant acc hn hc, hslope, mul_zero]
      simp [received, sent, hk hn, hc]
    | read hn _ _ hrd =>
      rw [outflow_read acc hn hrd]
      simp [received, sent, hk hn, hrd]
    | registered hn _ _ hregistered =>
      rw [outflow_expression acc hn hregistered]
      simp [received, sent, hk hn, hregistered]
  | write hn hw =>
    have hslope : S.slopeAt path id = 0 := by
      rw [slopeAt, Interpretation.tangent]
      simp only [Graph.denote_of_node? hn, hw, Prod.snd_zero]
    rw [outflow_write acc hn hw, hslope, mul_zero]
    simp [received, sent, hk hn, hw]

variable {S path}

/-- In the end, what arrived at the reads is what the writes have sent. -/
theorem Balanced.sum_received (h : S.Balanced path order done sw) (hperm : done.Perm order)
    (hnum : ∀ id ∈ order, sw.draft.Numeric id) (hla : sw.draft.Precedes S.last) :
    (order.map (S.received path sw.accumulator)).sum =
      (order.map (S.sent path sw.accumulator)).sum := by
  have hbalance := h.balance hla
  rw [(hperm.map _).sum_eq] at hbalance
  have hsplit : order.map (fun id ↦ S.received path sw.accumulator id +
      S.outflow path sw.accumulator id) = order.map fun id ↦
        S.gathered sw.accumulator id * S.slopeAt path id + S.sent path sw.accumulator id :=
    map_congr_left fun id hid ↦ received_add_outflow S path _ ((hnum id hid).later hla)
  have hsum := congrArg List.sum hsplit
  rw [sum_map_add, sum_map_add, ← hbalance, add_comm] at hsum
  exact add_left_cancel hsum

/-- Nothing is received with respect to an address but at the reads of it. -/
theorem received_eq_zero (hs : d.Sound) (hla : d.Precedes S.last) (hn : d.graph.node? id = some n)
    (ho : ∀ ⦃addr : NodeId⦄ ⦃t : String⦄, n.kind = .read addr → ¬ d.Locates addr t path) :
    S.received path acc id = 0 := by
  rw [received, hla.graph.node? hn, map_some]
  split
  next addr hrd =>
    rw [some.injEq] at hrd
    obtain ⟨-, tgt, htg, haddr, -⟩ := hs.read hn hrd
    obtain ⟨way, hway⟩ := hs.exists_place htg haddr
    have hslope : S.slopeAt path id = _ := S.interpretation.tangent_read path
      (hla.graph.node? hn) hrd (hway.later hla).accessPath?
    rw [hslope, if_neg, mul_zero]
    rintro rfl
    exact ho hrd hway
  · rfl

/-- Nothing is sent with respect to an address that is not read. -/
theorem Balanced.sum_sent_eq_zero (h : S.Balanced path order done sw) (hperm : done.Perm order)
    (hnum : ∀ id ∈ order, sw.draft.Numeric id) (hla : sw.draft.Precedes S.last)
    (hunread : ∀ ⦃id addr : NodeId⦄ ⦃n : Node⦄ ⦃t : String⦄, id ∈ order →
      sw.draft.graph.node? id = some n → n.kind = .read addr → ¬ sw.draft.Locates addr t path) :
    (order.map (S.sent path sw.accumulator)).sum = 0 := by
  rw [← h.sum_received hperm hnum hla]
  refine sum_eq_zero fun share hshare ↦ ?_
  obtain ⟨id, hid, rfl⟩ := mem_map.mp hshare
  obtain ⟨n, hn⟩ := (hnum id hid).node?
  exact received_eq_zero _ h.holds.sound hla hn fun _ _ ↦ hunread hid hn

/-- All that the writes send with respect to an address arrives at the read of the address. -/
theorem Balanced.gathered_read (h : S.Balanced path order done sw) (hperm : done.Perm order)
    (hnd : order.Nodup) (hnum : ∀ id ∈ order, sw.draft.Numeric id) (hla : sw.draft.Precedes S.last)
    (hid : id ∈ order) (hn : sw.draft.graph.node? id = some n) (hk : n.kind = .read addr)
    (hpl : sw.draft.Locates addr t path) :
    S.gathered sw.accumulator id = (order.map (S.sent path sw.accumulator)).sum := by
  rw [← h.sum_received hperm hnum hla]
  have hreceived : order.map (S.received path sw.accumulator) = order.map fun other ↦
      if other = id then S.gathered sw.accumulator other else 0 := by
    refine map_congr_left fun other ho ↦ ?_
    obtain ⟨m, hf⟩ := (hnum other ho).node?
    by_cases heq : other = id
    · subst heq
      have hslope : S.slopeAt path other = _ := S.interpretation.tangent_read path
        (hla.graph.node? hn) hk (hpl.later hla).accessPath?
      rw [received, hla.graph.node? hn, map_some, hk]
      rw [hslope, if_pos rfl, if_pos rfl, mul_one]
    · rw [if_neg heq]
      refine received_eq_zero _ h.holds.sound hla hf fun otherAddress _ hrd hway ↦ heq ?_
      -- There is one address for the path and one read of it.
      obtain ⟨rfl, -⟩ := hway.unique h.holds.sound hpl
      obtain ⟨-, tgt, htg, -, ht⟩ := h.holds.sound.read hf hrd
      obtain ⟨-, target', htg', -, ht'⟩ := h.holds.sound.read hn hk
      cases htg.symm.trans htg'
      exact h.holds.sound.interned.eq_of_contents hf hn (ht.symm.trans ht') (hrd.trans hk.symm)
  rw [hreceived, sum_map_ite_eq, count_eq_one_of_mem hnd hid]
  simp

end Reads

end Setting

end DiffGraph
