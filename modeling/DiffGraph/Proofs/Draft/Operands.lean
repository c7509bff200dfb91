import DiffGraph.Proofs.Draft.Simplification

/-!
Operands of any form. An operator can be applied to addresses and to literals as well as to values:
an address is read and a literal becomes a constant, and the operator is applied to what came of them
(`attains_apply_operands`).
-/

set_option autoImplicit false

namespace DiffGraph

open Stateful Registry List

variable {d draft newer : Draft} {t type name : String} {id v value : NodeId} {arg operand : Operand}
  {args : List Operand} {mayFail : Prop}

namespace Draft

/-- The operand can be taken for a number of the type. A literal has double precision. -/
def Offers (d : Draft) (t : String) : Operand → Prop
  | .node id => d.HasType id t
  | .float _ => t = "double"
  | .int _ => False

/-- The node is what the operand is taken for: the operand itself, what is read there, or the
literal. -/
def Represents (d : Draft) (t : String) : Operand → NodeId → Prop
  | .node id, v => d.HoldsValue v t ∧
    (v = id ∨ ∃ tgt n, d.graph.node? id = some tgt ∧ tgt.isAddress = true ∧
      d.graph.node? v = some n ∧ n.kind = .read id)
  | .float x, v => ∃ defn, d.types.get? t = some defn ∧
    d.StoresConstant v t (defn.normalize (.float x))
  | .int _, _ => False

/-- The node stands for the operand. -/
structure Coerces (d : Draft) (t : String) (arg : Operand) (id : NodeId) : Prop where
  hasType : d.HasType id t
  represents : ∀ {last : Draft} {v : NodeId}, d.Precedes last →
    last.Represents t (.node id) v → last.Represents t arg v

theorem Offers.later (h : d.Offers t operand) (hl : d.Precedes newer) : newer.Offers t operand := by
  cases operand with
  | node id => exact (show d.HasType id t from h).later hl
  | float | int => exact h

theorem Represents.later (h : d.Represents t arg value) (hl : d.Precedes newer) :
    newer.Represents t arg value := by
  cases arg with
  | node id =>
    exact ⟨h.1.later hl, h.2.imp_right fun ⟨tgt, node, htg, haddr, hn, hk⟩ ↦
      ⟨tgt, node, hl.graph.node? htg, haddr, hl.graph.node? hn, hk⟩⟩
  | float x =>
    obtain ⟨defn, hg, hst⟩ := h
    obtain ⟨wider, hwd, hwn⟩ := hl.types.get? hg
    exact ⟨wider, hwd, hwn.normalize _ ▸ hst.later hl⟩
  | int n => exact h

theorem Coerces.later (h : d.Coerces t arg id) (hl : d.Precedes newer) : newer.Coerces t arg id :=
  ⟨h.hasType.later hl, fun hla ↦ h.represents (hl.trans hla)⟩

theorem Represents.holdsValue (h : d.Represents type arg v) : d.HoldsValue v type := by
  cases arg with
  | node id => exact h.1
  | float x =>
    obtain ⟨defn, -, hst⟩ := h
    exact hst.holdsValue
  | int n => exact absurd h id

theorem Represents.forall_holdsValue {values : List NodeId}
    (h : List.Forall₂ (d.Represents type) args values) :
    ∀ v ∈ values, d.HoldsValue v type := by
  intro v hv
  obtain ⟨pos, hpos, rfl⟩ := mem_iff_getElem.mp hv
  exact Represents.holdsValue (h.get (h.length_eq ▸ hpos) hpos)

end Draft

namespace Build

open Draft

theorem attains_valueOf (hs : draft.Sound) (ht : draft.HasType id t) :
    draft.Attains (valueOf id) mayFail fun d' value ↦ d'.Represents t (.node id) value := by
  obtain ⟨n, hn, rfl⟩ := ht
  cases haddr : n.isAddress with
  | false =>
    have hholds : draft.HoldsValue id n.type := ⟨n, hn, rfl, haddr⟩
    exact attains_of_ok hs (run_valueOf hholds) ⟨hholds, .inl rfl⟩
  | true =>
    have hr : (valueOf id).run draft = (read id).run draft := by
      rw [valueOf, run_bind_of_ok (run_node_of_some hn), if_pos haddr]
    refine Attains.of_run ?_ hr
    refine (attains_read hs hn haddr).mono (fun h ↦ h) fun hl _ hrd ↦ ?_
    obtain ⟨m, hf, hk, ht, hv⟩ := hrd
    exact ⟨⟨m, hf, ht, hv⟩, .inr ⟨n, m, hl.graph.node? hn, haddr, hf, hk⟩⟩

/-- If there are literals, the type that they take is the one of the other operands. -/
theorem run_floatTypeAmong (hoffers : ∀ arg ∈ args, d.Offers t arg) :
    ∃ m, (floatTypeAmong args).run d = (.ok m, d) ∧
      (t = "double" → m.getD "double" = "double") := by
  induction args with
  | nil => exact ⟨none, rfl, fun _ ↦ rfl⟩
  | cons arg args ih =>
    obtain ⟨hfst, hos⟩ := forall_mem_cons.mp hoffers
    obtain ⟨m, hr, hf⟩ := ih hos
    cases arg with
    | node id =>
      obtain ⟨node, hn, rfl⟩ := hfst
      rw [floatTypeAmong, run_bind_of_ok (run_checkOwned_of_owns (Graph.owns_of_node? hn)),
        run_bind_of_ok (run_typeOf_of_some hn), run_get_bind, run_bind_of_ok hr]
      refine ⟨_, rfl, fun ht ↦ ?_⟩
      split
      · exact ht
      · exact hf ht
    | float x => exact ⟨m, hr, hf⟩
    | int n => exact absurd hfst id

/-- Operands become nodes of the type. -/
theorem attains_coerce (hs : d.Sound) {defn : TypeDefinition} (hg : d.types.get? t = some defn)
    (hoffers : ∀ arg ∈ args, d.Offers t arg) :
    d.Attains (coerce args) mayFail fun middle ids ↦ List.Forall₂ (middle.Coerces t) args ids := by
  obtain ⟨m, hr, hf⟩ := run_floatTypeAmong hoffers
  refine Attains.after_ok (attains_mapM (fun hl h ↦ h.later hl) hs fun arg hop d' hl haf ↦ ?_) hr
  have hoffer := (hoffers arg hop).later hl
  cases arg with
  | node id => exact attains_pure haf ⟨hoffer, fun _ hrepresents ↦ hrepresents⟩
  | float x =>
    obtain ⟨wider, hwd, -⟩ := hl.types.get? hg
    obtain rfl : t = "double" := hoffer
    dsimp only
    rw [hf rfl]
    refine (attains_constant haf hwd (.float x)).mono (fun h ↦ h) fun {middle id} hmid _ hst ↦ ?_
    have hrepresents : middle.Represents "double" (.float x) id := by
      obtain ⟨defn, hg, hwn⟩ := hmid.types.get? hwd
      exact ⟨defn, hg, hwn.normalize _ ▸ hst⟩
    obtain ⟨node, hn, ht, hk, hv⟩ := hst
    refine ⟨⟨node, hn, ht⟩, fun hla hnow ↦ ?_⟩
    rcases hnow.2 with rfl | ⟨tgt, -, htg, haddr, -⟩
    · exact hrepresents.later hla
    · cases (hla.graph.node? hn).symm.trans htg
      exact absurd haddr (by rw [hv]; exact Bool.false_ne_true)
  | int n => exact absurd hoffer id

theorem attains_mapM_valueOf {ids : List NodeId} (hs : d.Sound)
    (hids : List.Forall₂ (d.Coerces t) args ids) :
    d.Attains (ids.mapM valueOf) mayFail fun d' values ↦
      List.Forall₂ (d'.Represents t) args values := by
  induction ids generalizing d args with
  | nil =>
    cases hids
    exact attains_pure hs .nil
  | cons id ids ih =>
    cases hids with
    | cons hfst hos =>
    rw [mapM_cons]
    refine (attains_valueOf hs hfst.hasType).bind fun hl haf hv ↦ ?_
    refine (ih haf (hos.imp fun _ _ h ↦ h.later hl)).bind fun hla hkept hvs ↦ ?_
    exact attains_pure hkept (.cons ((hfst.represents hl hv).later hla) hvs)

/-- An operator is applied to what its operands are taken for. -/
theorem attains_apply_operands {rest pos : Nat} {ov : Overload}
    {result : Draft → NodeId → Prop} (hs : d.Sound) (hcal : d.Calculates t)
    (hoffers : ∀ arg ∈ args, d.Offers t arg)
    (hrv : Registry.standard.resolve name (args.map fun _ ↦ t) = some (pos, ov))
    (happly : ∀ {values d'}, d.Precedes d' → d'.Sound → List.Forall₂ (d'.Represents t) args values →
      Registry.standard.resolve name (values.map fun _ ↦ t) = some (pos, ov) →
        d'.Attains (perform rest (.apply name (values.map .node))) mayFail result) :
    d.Attains (perform rest (.apply name args)) mayFail result := by
  obtain ⟨defn, hg, -⟩ := hcal.zero
  obtain ⟨hls, rfl⟩ := mem_of_resolve hrv
  have hcoerces : d.Attains (coerce args) False _ := attains_coerce hs hg hoffers
  obtain ⟨ids, middle, hcoerce, hgr, hmid, hids⟩ := hcoerces.exists_ok
  have hreads : middle.Attains (ids.mapM valueOf) False _ := attains_mapM_valueOf hmid hids
  obtain ⟨values, last, hvs, hla, hkept, htaken⟩ := hreads.exists_ok
  have hsame : Registry.standard.resolve ov.name (values.map fun _ ↦ t) = some (pos, ov) := by
    rw [← hrv]
    simp only [map_const', htaken.length_eq]
  obtain ⟨-, hnd⟩ := hcal.overloads hsame
  have hres {d' : Draft} (haf : d.Precedes d') : d'.HasResult (args.map fun _ ↦ t) t ov.result := by
    obtain ⟨wider, hwd, -⟩ := haf.types.get? hg
    rw [hnd]
    exact ⟨rfl, by rw [hwd]; rfl⟩
  have hl := hgr.toPrecedes.trans hla.toPrecedes
  have hproj := standard_projection _ hls
  have hr : (perform rest (.apply ov.name args)).run d =
      (perform rest (.apply ov.name (values.map .node))).run last := by
    rw [run_perform_operands rest hproj hcoerce
      (forall₂_map_right_iff.mpr (hids.flip.imp fun _ _ h ↦ h.hasType))
      (by rw [hgr.toPrecedes.operators, hcal.operators, hrv])
      (hres hgr.toPrecedes) hvs, run_perform_apply rest hproj
      (forall₂_map_right_iff.mpr (htaken.flip.imp fun _ _ h ↦ Represents.holdsValue h))
      (by rw [hl.operators, hcal.operators, hrv]) (hres hl)]
  rcases happly hl hkept htaken hsame with ⟨id, d', happlied, haf, hrs⟩ | ⟨hfl, error, d', happlied⟩
  · exact .inl ⟨id, d', hr.trans happlied, (hgr.trans hla).trans haf, hrs⟩
  · exact .inr ⟨hfl, error, d', hr.trans happlied⟩

end Build

end DiffGraph
