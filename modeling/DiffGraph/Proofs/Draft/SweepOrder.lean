import DiffGraph.Proofs.Draft.Addresses
import DiffGraph.Proofs.Draft.Faults
import DiffGraph.Proofs.Draft.Rendering

/-!
The order of the reverse sweep. Nodes are visited from the results back to the arguments, each after
all that use it. When a node is visited its gradient is summed up and passed on to its sources, the
values it is computed from: these are still to be visited, and they are no addresses.

Totals are known of visited nodes and of addresses only (`Accumulator.Settled`), so nothing is ever
added to a gradient that is summed up (`Draft.Reachable.adjoint_not_finalized`).
-/

set_option autoImplicit false

namespace DiffGraph

open Stateful Reverse List

variable {node : Node} {id src : NodeId} {visited : List NodeId}

theorem Node.mem_operands_of_mem_sources (h : src ∈ node.sources) : src ∈ node.operands := by
  unfold sources at h
  rw [operands]
  split at h
  next hk =>
    rw [hk]
    exact mem_cons_of_mem _ h
  next hk =>
    rw [hk]
    split at h
    · cases h
    · exact h
  all_goals cases h

/-- Sources are values. -/
theorem Draft.Sound.isAddress_source {d : Draft} (hs : d.Sound)
    (hnode : d.graph.node? id = some node) (h : src ∈ node.sources) :
    ∃ m, d.graph.node? src = some m ∧ m.isAddress = false := by
  unfold Node.sources at h
  split at h
  next hk =>
    obtain ⟨-, m, -, -, -, -, -, -, hf, hv, -⟩ := hs.write_target hnode hk
    exact ⟨m, mem_singleton.mp h ▸ hf, hv⟩
  next operator operands hk =>
    split at h
    · cases h
    next hv =>
      cases hproj : operator.isProjection with
      | false => exact hs.operand_isAddress hnode hk hproj h
      | true =>
        obtain ⟨before, hbf, hfi, -⟩ := hs.expression hnode hk
        obtain ⟨base, m, rfl, hf, haddr⟩ := hfi.of_projection hproj
        obtain rfl := mem_singleton.mp h
        exact ⟨m, hbf.graph.node? hf, haddr.trans (by simpa using hv)⟩
  all_goals cases h

/-- What a node is computed from is not visited before it. -/
theorem Dependencies.operand_not_visited {g : Graph} {roots : List NodeId} {earlier : List NodeId}
    {arg : NodeId} (h : (of g roots).inOrder.toList = earlier ++ id :: visited)
    (hop : arg ∈ g.operands id) : arg ∉ id :: visited := by
  have hnd := nodup_inOrder g roots
  rw [h] at hnd
  exact fun hvisited ↦ (nodup_append.mp hnd).2.2 arg (operands_inOrder g roots h arg hop)
      arg hvisited rfl

namespace Accumulator

variable {g : Graph} {acc : Accumulator}

/-- No total is known. -/
def Open (acc : Accumulator) : Prop := ∀ id : NodeId, acc.totals[id]? = none

/-- Totals are known of visited nodes and of addresses only. -/
def Settled (g : Graph) (visited : List NodeId) (acc : Accumulator) : Prop :=
  ∀ ⦃id : NodeId⦄, acc.totals[id]? ≠ none →
    id ∈ visited ∨ ∃ node, g.node? id = some node ∧ node.isAddress = true

theorem Open.settled (h : acc.Open) : acc.Settled g visited := fun id hkn ↦ absurd (h id) hkn

theorem Settled.visit (h : acc.Settled g visited) (id : NodeId) : acc.Settled g (id :: visited) :=
  fun _ hkn ↦ (h hkn).imp_left (mem_cons_of_mem id)

/-- A total may be noted down for what is visited and for addresses. -/
theorem Settled.close (h : acc.Settled g visited)
    (hid : id ∈ visited ∨ ∃ node, g.node? id = some node ∧ node.isAddress = true)
    (total : NodeId) : (acc.close id total).Settled g visited := by
  intro other hkn
  rw [totals_close] at hkn
  split at hkn
  next heq => exact heq ▸ hid
  next => exact h hkn

theorem Settled.open_of_value (h : acc.Settled g visited) (hid : id ∉ visited)
    (hnode : g.node? id = some node) (hv : node.isAddress = false) :
    acc.totals[id]? = none := by
  by_contra hkn
  rcases h hkn with hvisited | ⟨m, hf, haddr⟩
  · exact hid hvisited
  · cases hnode.symm.trans hf
    cases hv.symm.trans haddr

end Accumulator

/-- No rule makes up an error about gradients. -/
def Guard.strict (limit : Nat) {operators : Registry} (h : operators.PassesToOperands) : Guard where
  fault := Error.Ordinary
  limit := limit
  operators := operators
  basic _ hbs := hbs.ordinary
  rules overload hov := (h overload hov).replace
  enough := .inl fun _ _ ↦ trivial

namespace Reverse

open Draft Build

variable {copied : Draft} {guard : Guard}

/-- A draft that grew out of the one with the copies, with operators that behave. -/
structure Watched (copied : Draft) (guard : Guard) (d : Draft) : Prop where
  steps : Steps copied d
  guarded : d.Guarded guard

section Watched

variable {failing : Error → Draft → Prop} {gradients : Accumulator → Prop}
  (hcopied : copied.Sound) (hfault : ∀ ⦃error⦄, guard.fault error → ∀ d, failing error d)

include hcopied hfault

theorem Watched.keeps {α : Type} {operation : Build α} (hguards : Build.Guards guard operation)
    (hld : ∀ d : Draft, d.Leads (operation.run d).2) :
    Keeps (Watched copied guard) failing operation := by
  intro d hd
  refine ⟨fun m d' hr ↦ ⟨?_, (hguards hd.guarded).1 hr⟩,
    fun error d' hr ↦ hfault ((hguards hd.guarded).2 hr).2 d'⟩
  have hsts := hld d (hcopied.steps hd.steps)
  rw [hr] at hsts
  exact hd.steps.trans hsts

theorem watches_watched : Watches (Watched copied guard) failing where
  allows _ hbs draft _ := hfault (guard.basic _ hbs) draft
  request wanted _ := Watched.keeps hcopied hfault (request_guards wanted) (request_leads wanted)
  types _ _ _ _ _ h hm := ⟨h.steps.tail (.types hm), h.guarded.of_same rfl rfl rfl⟩

end Watched

variable {limit : Nat} {operators : Registry} {hpasses : operators.PassesToOperands}

section Visits

variable {failing : Error → Draft → Prop} {gradients : Accumulator → Prop}
  (hcopied : copied.Sound) (hnode : copied.graph.node? id = some node)
  (hfault : ∀ ⦃error : Error⦄, error.Ordinary → ∀ d, failing error d)
  (hpush : ∀ src ∈ node.sources, ∀ c,
    Maintains (Watched copied (.strict limit hpasses)) failing gradients (push src c))

include hcopied hfault hpush

/-- Gradients are passed on to sources only. -/
theorem maintains_passOn_sources (gradient : NodeId) :
    Maintains (Watched copied (.strict limit hpasses)) failing gradients (passOn node gradient) := by
  refine maintains_passOn (watches_watched hcopied hfault) gradient hpush
    fun op args hk hv d name pos rule hd hru ↦ ?_
  obtain ⟨ov, hov, hgrad⟩ := Option.bind_eq_some_iff.mp hru
  have hyields := (hpasses ov (hd.guarded.overload hov)).gradient rule hgrad args gradient
  refine maintains_flows (fun _ h ↦ h.guarded) hyields (Watched.keeps hcopied hfault
    (carryOut_guards hyields.failsWithin) (carryOut_leads _)) fun tgt htg ↦ hpush tgt ?_
  simpa [Node.sources, hk, hv] using htg

include hnode

theorem maintains_visit (htot : ∀ tgt, node.summed? id = some tgt →
      Maintains (Watched copied (.strict limit hpasses)) failing gradients (total tgt)) :
    Maintains (Watched copied (.strict limit hpasses)) failing gradients (backward id) := by
  refine maintains_backward (watches_watched hcopied hfault) fun d m hd hf ↦ ?_
  cases hf.symm.trans (hd.steps.precedes.graph.node? hnode)
  exact ⟨htot, maintains_passOn_sources hcopied hfault hpush⟩

end Visits

theorem seed_open {cond : Draft → Prop}
    (h : Watches cond fun error _ ↦ error.Ordinary) (seeds : Partners) (order : Array NodeId) :
    Maintains cond (fun error _ ↦ error.Ordinary) Accumulator.Open (seed seeds order) :=
  maintains_seed h seeds fun _ _ _ _ tgt _ _ _ _ c ↦
    maintains_push h.allows c (fun _ _ _ _ _ _ h _ ↦ h) fun _ h hkn ↦ absurd (h tgt) hkn

theorem deposit_ordinary (hcopied : copied.Sound) (deposits : Partners) (order : Array NodeId) :
    Maintains (Watched copied (.strict limit hpasses)) (fun error _ ↦ error.Ordinary)
      Accumulator.Free (deposit deposits order) := by
  have hwatches : Watches (Watched copied (.strict limit hpasses)) fun error _ ↦ error.Ordinary :=
    watches_watched hcopied fun _ h _ ↦ h
  refine maintains_deposit hwatches (fun _ ↦ maintains_total hwatches fun _ _ _ _ h _ _ ↦ h)
    (fun addr v ↦ ?_) deposits order
  exact Watched.keeps hcopied (fun _ h _ ↦ h) (write_guards addr v) (write_leads addr v)

/-- Visiting a node settles it, and finds its sources open. -/
theorem backward_ordinary (hcopied : copied.Sound) (hnode : copied.graph.node? id = some node)
    (hahead : ∀ arg ∈ copied.graph.operands id, arg ∉ id :: visited) :
    Maintains (Watched copied (.strict limit hpasses)) (fun error _ ↦ error.Ordinary)
      (Accumulator.Settled copied.graph (id :: visited)) (backward id) := by
  have hwatches : Watches (Watched copied (.strict limit hpasses)) fun error _ ↦ error.Ordinary :=
    watches_watched hcopied fun _ h _ ↦ h
  refine maintains_visit hcopied hnode (fun _ h _ ↦ h) (fun src hsrc c ↦ ?_)
    fun tgt hsummed ↦ maintains_total hwatches fun _ m _ _ h _ _ ↦ h.close ?_ m
  · obtain ⟨m, hf, hv⟩ := hcopied.isAddress_source hnode hsrc
    refine maintains_push hwatches.allows c (fun _ _ _ _ _ _ h _ ↦ h) fun _ h hkn ↦
      absurd (h.open_of_value ?_ hf hv) hkn
    refine hahead src ?_
    rw [Graph.operands_of_node? hnode]
    exact Node.mem_operands_of_mem_sources hsrc
  · unfold Node.summed? at hsummed
    split at hsummed
    next address value hk =>
      obtain ⟨m, -, -, -, -, -, hf, haddr, -⟩ := hcopied.write_target hnode hk
      cases hsummed
      exact .inr ⟨m, hf, haddr⟩
    all_goals grind

/-- Visiting the nodes one after another never finds a source summed up. -/
theorem sweep_ordinary (hcopied : copied.Sound) {rest : List NodeId}
    (hord : copied.order = rest ++ visited) {sw : Sweep}
    (hsw : Watched copied (.strict limit hpasses) sw.draft ∧
      sw.accumulator.Settled copied.graph visited) :
    (∀ ⦃d'⦄, (rest.reverse.forM backward).run sw = (.ok ⟨⟩, d') →
      Watched copied (.strict limit hpasses) d'.draft) ∧
      ∀ ⦃error d'⦄, (rest.reverse.forM backward).run sw = (.error error, d') → error.Ordinary := by
  induction rest using List.reverseRecOn generalizing visited sw with
  | nil =>
    refine ⟨fun d' hr ↦ ?_, fun _ _ hr ↦ by cases hr⟩
    cases hr
    exact hsw.1
  | append_singleton earlier id ih =>
    rw [append_assoc, singleton_append] at hord
    obtain ⟨node, hnode⟩ := hcopied.node?_of_mem_order (show id ∈ copied.order by simp [hord])
    have hvisit := backward_ordinary hcopied hnode
      (fun _ ↦ Dependencies.operand_not_visited hord) ⟨hsw.1, hsw.2.visit id⟩
    rw [reverse_concat]
    rcases hr : (backward id).run sw with ⟨error | ⟨⟩, d'⟩
    · have hfailed : ((id :: earlier.reverse).forM backward).run sw = (.error error, d') :=
        run_bind_of_error hr
      rw [hfailed]
      refine ⟨fun _ hrs ↦ (by cases hrs), fun error' after' hrs ↦ ?_⟩
      cases hrs
      exact hvisit.2 hr
    · rw [run_forM_cons hr]
      exact ih hord (hvisit.1 hr)

end Reverse

namespace Draft

variable {p primal : Draft} {owner : Nat} {ex excluded : List String}

/-- The draft with the copies is sound. -/
theorem Sound.sound_copied (hpm : p.Sound) {copied : Draft} (hbuilt : (do
      (p.adjointArguments ex).forM fun (name, t, dir) ↦ do
        let _ ← Build.declareArgument name t dir
      Build.copyWrites p : Build Unit).run (p.adjointStart owner).draft =
        (.ok ⟨⟩, copied)) : copied.Sound := by
  refine Leads.sound (moves_bind ?_ fun _ _ _ ↦ Build.copyWrites_leads p _) hbuilt (sound_new ..)
  exact Build.declareArguments_leads fun _ hen ↦ hpm.isSome_type_of_mem_adjoint hen

theorem guarded_adjointStart (hpasses : p.operators.PassesToOperands) (owner : Nat) :
    (p.adjointStart owner).draft.Guarded (.strict p.options.replacementLimit hpasses) :=
  guarded_new owner _ _ rfl

/-- The stages of an adjoint, with the errors that they may have. -/
theorem Sound.run_adjoint_ordinary (hpm : p.Sound)
    (hpasses : p.operators.PassesToOperands) {error : Error} {last : Sweep}
    (h : (Reverse.adjoint p ex).run (p.adjointStart owner) = (.error error, last)) :
    error.Ordinary := by
  have hbody := Build.adjointBody_guards p ex (guarded_adjointStart hpasses owner)
  rcases error_of_run_bind h with hfl | ⟨⟨⟩, s, hr, h⟩
  · obtain ⟨hfl, -⟩ := Prod.mk.inj hfl
    exact (hbody.2 (Prod.ext hfl rfl)).2
  obtain ⟨copied, hbuilt, rfl⟩ := ok_of_run_onDraft hr
  have hcopied := hpm.sound_copied hbuilt
  rw [run_get_bind] at h
  have hwatches : Build.Watches (Watched copied (.strict p.options.replacementLimit hpasses))
      fun error _ ↦ error.Ordinary := watches_watched hcopied fun _ h _ ↦ h
  have hseed := seed_open hwatches (p.gradientNames ex).seeds
    copied.dependencies.inOrder (s := ⟨copied, .empty⟩)
    ⟨⟨.refl, hbody.1 hbuilt⟩, Accumulator.totals_empty⟩
  rcases error_of_run_bind h with hfl | ⟨⟨⟩, seeded, hseeded, h⟩
  · exact hseed.2 hfl
  have hsw := sweep_ordinary hcopied (append_nil copied.order).symm
    ⟨(hseed.1 hseeded).1, (hseed.1 hseeded).2.settled⟩
  rw [array_forM_eq, Array.toList_reverse] at h
  rcases error_of_run_bind h with hfl | ⟨⟨⟩, swept, hswept, h⟩
  · exact hsw.2 hfl
  exact (deposit_ordinary hcopied _ _ ⟨hsw.1 hswept, trivial⟩).2 h

/-- The reverse sweep never adds to a gradient that is summed up: an adjoint does not fail with this
error, whatever the function and the excluded arguments, as long as the rules of its operators pass
gradients on to operands only. -/
theorem Reachable.adjoint_not_finalized (hprimal : primal.Reachable)
    (hpasses : primal.operators.PassesToOperands) (owner : Nat) (excluded : List String)
    (node : String) (types : TypeTable) :
    primal.adjoint owner excluded ≠ (.error (.gradientFinalized node), types) := by
  intro h
  rcases error_of_adjoint (congrArg Prod.fst h) with ⟨_, hundeclared⟩ | ⟨sweep, hrun⟩
  · cases hundeclared
  · exact hprimal.sound.run_adjoint_ordinary hpasses hrun

/-- The adjoints of a function that takes a minimum and a maximum. -/
theorem Reachable.adjoint_not_finalized_minMax : ∃ primal : Draft, primal.Reachable ∧
    primal.operators.PassesToOperands ∧ primal.writes = [⟨0, 5⟩] ∧ ∀ excluded node types,
      primal.adjoint 1 excluded ≠ (.error (.gradientFinalized node), types) := by
  obtain ⟨primal, hprimal, hlists⟩ := exists_minMax
  have hpasses : primal.operators.PassesToOperands :=
    hlists.operators ▸ Registry.standard_passesToOperands
  exact ⟨primal, hprimal, hpasses, hlists.writes, hprimal.adjoint_not_finalized hpasses 1⟩

end Draft

end DiffGraph
