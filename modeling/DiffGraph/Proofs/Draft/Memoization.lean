import DiffGraph.Proofs.Draft.Construction
import DiffGraph.Proofs.Draft.DualNumbers
import DiffGraph.Proofs.Draft.Folding
import DiffGraph.Proofs.Draft.Results

/-!
Known derivatives make no difference. Derivatives can be had without any that are known, by
recursion on the nodes of a graph (`Build.derive`). Where rules depend on terms only, a derivative
that is known is the same term as the one that this recursion yields in any other draft, whatever
was differentiated before in either of them (`Derived.rederives`). So a differentiation comes to
what the recursion comes to, and asking again changes nothing
(`Reachable.differentiate_transparent`).
-/

set_option autoImplicit false

namespace DiffGraph

open Stateful Draft Build Option List

variable {draft fresh d' after : Draft} {g : Graph} {n node : Node} {t : String}
  {address addr' address' id id' deriv derivative : NodeId} {args args' tangents : List NodeId}

namespace Build

/-- The derivative of an expression, given those of its operands. -/
def chain (t : String) (op : Operator) (args tangents : List NodeId) :
    Build NodeId := do
  match op with
  | .registered name ov =>
    match ((← get).operators.overload? name ov).bind fun o ↦ o.rules.derivative with
    | none => throw (.noDerivativeRule name (← typesOf args))
    | some rule => carryOut (rule args tangents)
  | .member _ | .index _ | .construct => rebuild op t tangents

/-- The derivative of a node of a graph, by recursion on its operands. No derivative is looked up,
and none is kept. -/
def derive (g : Graph) (addr id : NodeId) : Build NodeId :=
  match hn : g.node? id with
  | none => do throw (.notDifferentiable (← describe id))
  | some n =>
    match n.kind with
    | .constant _ => zero n.type
    | .argument .. => unitIf (id = addr) n.type
    | .read src => unitIf (src = addr) n.type
    | .write .. => do throw (.notDifferentiable (← describe id))
    | .expression op _ =>
      if n.isAddress then unitIf (id = addr) n.type
      else do
        let tangents ← n.operands.attach.mapM fun arg ↦
          have := Graph.operand_index_lt hn arg.2
          derive g addr arg.1
        chain n.type op n.operands tangents
termination_by id.index

theorem derive_of_node? (hn : g.node? id = some n) : derive g address id =
      match n.kind with
      | .constant _ => zero n.type
      | .argument .. => unitIf (id = address) n.type
      | .read src => unitIf (src = address) n.type
      | .write .. => do throw (.notDifferentiable (← describe id))
      | .expression op args =>
        if n.isAddress then unitIf (id = address) n.type
        else (do
          let tangents ← args.mapM (derive g address)
          chain n.type op args tangents) := by
  rw [derive]
  split
  next hno => cases hno.symm.trans hn
  next found hf =>
    cases hn.symm.trans hf
    have hmap : (n.operands.attach.mapM fun arg ↦ derive g address arg.1) =
        n.operands.mapM (derive g address) := by
      conv => rhs; rw [← attach_map_subtype_val n.operands, mapM_map]
      rfl
    rw [hmap, Node.operands]
    cases n.kind <;> rfl

/-- A derivative that is built from those that are known is built from those of the operands. -/
theorem ok_of_run_differentiateExpression {op : Operator}
    (h : (differentiateExpression address t op args).run draft = (.ok deriv, d')) :
    ∃ tangents, draft.HasTangents address args tangents ∧
      (chain t op args tangents).run draft = (.ok deriv, d') := by
  cases op with
  | registered name pos =>
    obtain ⟨_, s, hg, hru⟩ := ok_of_run_bind h
    obtain ⟨rfl, rfl⟩ := ok_of_run_get hg
    split at hru
    next =>
      obtain ⟨ts, s, -, hthrown⟩ := ok_of_run_bind hru
      cases hthrown
    next rule hf =>
      obtain ⟨tangents, s, hr, hcarried⟩ := ok_of_run_bind hru
      obtain ⟨htan, rfl⟩ := ok_of_run_mapM_tangent hr
      refine ⟨tangents, htan, (run_get_bind).trans ?_⟩
      rw [hf]
      exact hcarried
  | member | index | construct =>
    obtain ⟨tangents, s, hr, hrebuilt⟩ := ok_of_run_bind h
    obtain ⟨htan, rfl⟩ := ok_of_run_mapM_tangent hr
    exact ⟨tangents, htan, hrebuilt⟩

end Build

namespace Draft

section Rules

variable {first second : Draft}

theorem matches_unitIf (hal : first.Alike second) (isUnit : Bool) (t : String) :
    Matches first second (Build.unitIf isUnit t) (Build.unitIf isUnit t) Same := by
  unfold Build.unitIf
  split
  · exact matches_one hal t
  · exact matches_constant hal t _

/-- The derivative of an expression depends on the terms of its operands and of their derivatives
only. -/
theorem matches_chain (hun : first.operators.Uniform)
    (hdifferentiates : first.operators.Differentiates) (hal : first.Alike second)
    (op : Operator) {tangents' : List NodeId} (hops : List.Forall₂ (Same first second) args args')
    (htan : List.Forall₂ (Same first second) tangents tangents') :
    Matches first second (Build.chain t op args tangents)
      (Build.chain t op args' tangents') Same := by
  cases op with
  | registered name pos =>
    refine .after_ok ?_ (run_get first) (run_get second)
    rw [hal.operators]
    split
    next =>
      obtain ⟨ts, hx, hy⟩ := hal.run_typesOf hops
      exact .after_ok (matches_throw hal (.refl _)) hx hy
    next rule hru =>
      refine hdifferentiates.rule hru hal hops htan fun _ _ _ _ hal hopr h ↦ ?_
      exact matches_request (hopr ▸ hun) hal h
  | member field => exact matches_rebuild hun hal (.member field) t htan
  | index pos => exact matches_rebuild hun hal (.index pos) t htan
  | construct => exact matches_rebuild hun hal .construct t htan

end Rules

/-- In the fresh draft, the operation yields the term that is known in the other one. -/
def Recovers (d : Draft) (k : NodeId) (fresh : Draft) (x : Build NodeId) : Prop :=
  ∃ m later, x.run fresh = (.ok m, later) ∧ fresh.Precedes later ∧ later.Sound ∧
    Same d later k m

/-- Wherever the address and the node stand for the same terms, the recursion yields the term of the
derivative. -/
def Rederives (d : Draft) (addr id deriv : NodeId) : Prop :=
  ∀ ⦃g : Graph⦄ ⦃fresh : Draft⦄ ⦃addr' id' : NodeId⦄, d.Alike fresh →
    g.Extends fresh.graph → g.Owns id' → Same d fresh addr addr' →
    Same d fresh id id' →
      d.Recovers deriv fresh (Build.derive g addr' id')

section Recursion

variable (hknown : ∀ {arg tangent : NodeId},
    draft.derivatives[(address, arg)]? = some tangent →
      draft.Rederives address arg tangent)
include hknown

/-- Operands whose derivatives are known are differentiated to the same terms, one after the
other. -/
theorem HasTangents.rederives (h : draft.HasTangents address args tangents)
    (hal : draft.Alike fresh) (hgraph : g.Extends fresh.graph)
    (haddr : Same draft fresh address addr') (hops : List.Forall₂ (Same draft fresh) args args')
    (how : ∀ arg ∈ args', g.Owns arg) :
    ∃ tangents' later, (args'.mapM (Build.derive g addr')).run fresh =
        (.ok tangents', later) ∧ fresh.Precedes later ∧ later.Sound ∧
      List.Forall₂ (Same draft later) tangents tangents' := by
  induction h generalizing fresh args' with
  | nil =>
    cases hops
    exact ⟨[], fresh, rfl, .refl fresh, hal.right, .nil⟩
  | cons hfst _ ih =>
    obtain - | ⟨hsame, hrs⟩ := hops
    obtain ⟨howd, how⟩ := forall_mem_cons.mp how
    obtain ⟨tangent, middle, hr, hpr, hs, htangent⟩ := hknown hfst hal hgraph howd haddr hsame
    obtain ⟨rest, later, hruns, hprecedes', hs', htan⟩ :=
      ih (hal.later (.refl draft) hpr hal.left hs) (hgraph.trans hpr.graph)
        (haddr.later (.refl draft) hpr)
        (hrs.imp fun _ _ h ↦ h.later (.refl draft) hpr) how
    refine ⟨tangent :: rest, later, ?_, hpr.trans hprecedes', hs',
      .cons (htangent.later (.refl draft) hprecedes') htan⟩
    rw [mapM_cons, run_bind_of_ok hr, run_bind_of_ok hruns]
    rfl

/-- A node that is differentiated by means of known derivatives is differentiated to the same term
without them. -/
theorem recovers_derive (hun : draft.operators.Uniform)
    (hdifferentiates : draft.operators.Differentiates)
    (h : (Build.differentiateNode address id).run draft = (.ok deriv, d'))
    (hal : draft.Alike fresh) (hgraph : g.Extends fresh.graph) (how : g.Owns id')
    (haddr : Same draft fresh address addr') (hid : Same draft fresh id id') :
    d'.Recovers deriv fresh (Build.derive g addr' id') := by
  have hmatches {x y : Build NodeId} {now : Draft} (hmatches : Matches draft now x y Same)
      (hr : x.run draft = (.ok deriv, d')) : d'.Recovers deriv now y := by
    obtain ⟨m, later, hy, -, hpr, hl, hsame⟩ := hmatches.of_ok hr
    exact ⟨m, later, hy, hpr, hl.right, hsame⟩
  have hunit {a b : NodeId} (hsame : Same draft fresh a b) :
      decide (a = address) = decide (b = addr') :=
    decide_eq_decide.mpr (hsame.eq_iff hal.left.interned hal.right.interned haddr)
  obtain ⟨n, s, hf, hks⟩ := ok_of_run_bind h
  obtain ⟨hn, rfl⟩ := ok_of_run_node hf
  obtain ⟨n', hn'⟩ := Graph.owns_iff_node?.mp how
  obtain ⟨ht, hk⟩ := hid.contents hn (hgraph.node? hn')
  have hisAddress := hid.isAddress_eq hal.left hal.right hn (hgraph.node? hn')
  rw [derive_of_node? hn', ← ht, ← hisAddress]
  generalize n.kind = kind at hk hks
  generalize hk' : n'.kind = kind' at hk
  cases hk with
  | constant => exact hmatches (matches_constant hal _ _) hks
  | argument =>
    rw [hunit hid] at hks
    exact hmatches (matches_unitIf hal _ _) hks
  | read hsrc =>
    dsimp only at hks
    rw [hunit hsrc] at hks
    exact hmatches (matches_unitIf hal _ _) hks
  | write => cases hks
  | @expression op args args' hops =>
    dsimp only at hks ⊢
    split at hks
    next hpl =>
      rw [hunit hid] at hks
      rw [if_pos hpl]
      exact hmatches (matches_unitIf hal _ _) hks
    next hpl =>
      rw [if_neg hpl]
      obtain ⟨tangents, htan, hchain⟩ := ok_of_run_differentiateExpression hks
      have howd : ∀ operand ∈ args', g.Owns operand := fun operand hop ↦
        Graph.owns_operand hn' (by rwa [Node.operands, hk'])
      obtain ⟨tangents', middle, hr, hpr, hs, hsame⟩ :=
        htan.rederives hknown hal hgraph haddr hops howd
      obtain ⟨m, later, hf, hprecedes', hrs⟩ := hmatches (matches_chain hun
        hdifferentiates (hal.later (.refl _) hpr hal.left hs) op
        (hops.imp fun _ _ h ↦ h.later (.refl _) hpr) hsame) hchain
      exact ⟨m, later, (run_bind_of_ok hr).trans hf, hpr.trans hprecedes', hrs⟩

end Recursion

section Histories

variable {newer : Draft}

theorem Alike.earlier (h : newer.Alike fresh) (hpr : draft.Precedes newer)
    (hs : draft.Sound) : draft.Alike fresh := by
  have hts : newer.types = draft.types := h.fixed.eq_of_extends hpr.types
  refine ⟨hs, h.right, ?_, ?_, ?_, ?_⟩
  · rw [h.operators, hpr.operators]
  · rw [h.types, hts]
  · rw [← hts]
    exact h.fixed
  · rw [h.options, hpr.options]

theorem Recovers.later {k : NodeId} {operation : Build NodeId}
    (h : draft.Recovers k fresh operation) (hpr : draft.Precedes newer) :
    newer.Recovers k fresh operation := by
  obtain ⟨m, later, hr, hfr, hl, hf⟩ := h
  exact ⟨m, later, hr, hfr, hl, hf.later hpr (.refl later)⟩

theorem Rederives.later (h : draft.Rederives address id derivative) (hs : draft.Sound)
    (hpr : draft.Precedes newer) (haddr : draft.graph.Owns address)
    (hid : draft.graph.Owns id) : newer.Rederives address id derivative := by
  intro g fresh addr' id' hal hgraph how hsame hsame'
  exact (h (hal.earlier hpr hs) hgraph how ((hpr.same haddr).trans hsame)
    ((hpr.same hid).trans hsame')).later hpr

/-- Known derivatives are the terms that the recursion yields, in any draft and whenever they were
built. -/
theorem Derived.rederives (h : draft.Derived) (hun : draft.operators.Uniform)
    (hdifferentiates : draft.operators.Differentiates)
    (hknown : draft.derivatives[(address, id)]? = some derivative) :
    draft.Rederives address id derivative := by
  refine (h.known_induction (P := fun d address id derivative ↦ d.operators.Uniform →
    d.operators.Differentiates → d.Rederives address id derivative) hknown ?_ ?_).2 hun hdifferentiates
  · intro d reached d' address id derivative hs haddr hknown hr hla hrc hun hdifferentiates
    have hpr := hrc.toPrecedes
    rw [hpr.operators] at hun hdifferentiates
    intro g fresh addr' id' hal hgraph how hsame hsame'
    exact (recovers_derive (fun h ↦ hknown h hun hdifferentiates) hun hdifferentiates hr
      (hal.earlier hpr hs) hgraph how ((hpr.same haddr).trans hsame)
      ((hpr.same (owns_of_run_differentiateNode hr)).trans hsame')).later hla
  · intro older newer address id derivative hs hrc haddr hid hold hun hdifferentiates
    have hpr := hrc.toPrecedes
    rw [hpr.operators] at hun hdifferentiates
    exact (hold hun hdifferentiates).later hs hpr haddr hid

end Histories

section Outcome

theorem variableOf_later (hpr : draft.Precedes d') (h : draft.graph.Owns address) :
    d'.variableOf address = draft.variableOf address := by
  obtain ⟨n, hn⟩ := Graph.owns_iff_node?.mp h
  unfold variableOf
  rw [hn, hpr.graph.node? hn]

theorem Same.variableOf (h : Same draft fresh address addr') :
    Same draft fresh (draft.variableOf address) (fresh.variableOf addr') := by
  obtain ⟨n, n', hn, hn', -, hk⟩ := h.nodes
  unfold Draft.variableOf
  rw [hn, hn', map_some, map_some]
  generalize n.kind = kind at hk
  generalize n'.kind = kind' at hk
  cases hk with
  | read hsrc => exact hsrc
  | constant | argument | write | expression => exact h

/-- What is known is not built again. -/
theorem run_differentiate_of_known (haddr : draft.graph.Owns address) (hid : draft.graph.Owns id)
    (hn : draft.graph.node? (draft.variableOf address) = some n) (hpl : n.isAddress = true)
    (hknown : draft.derivatives[(draft.variableOf address, id)]? = some deriv) :
    (Build.differentiate address id).run draft = (.ok deriv, draft) := by
  obtain ⟨m, hf⟩ := Graph.owns_iff_node?.mp haddr
  unfold Build.differentiate
  rw [run_bind_of_ok (run_checkOwned_of_owns haddr), run_bind_of_ok (run_checkOwned_of_owns hid),
    run_bind_of_ok (run_node_of_some hf)]
  extract_lets source
  have hsrc : source = draft.variableOf address := by
    unfold source Draft.variableOf
    rw [hf, map_some]
    cases m.kind <;> rfl
  rw [← hsrc] at hn hknown
  rw [run_bind_of_ok (run_node_of_some hn), hpl, Bool.not_true,
    if_neg Bool.false_ne_true, run_bind_of_ok (run_derivative? _ _ _), hknown]
  rfl

def sineDraft : Draft :=
  blank.requested [.declare "x" "double" .input, .read ⟨0, 0⟩, .apply "sin" [.node ⟨0, 1⟩]]

theorem lists_sine : blank.Lists sineDraft
    [("double", .argument "x" .input, true), ("double", .read ⟨0, 0⟩, false),
      ("double", .expression (.registered "sin" 0) [⟨0, 1⟩], false)] [("x", ⟨0, 0⟩)] [] :=
  .of_listing (reachable_requested _) (by cbv)

theorem run_slope_sine : (Build.differentiate ⟨0, 0⟩ ⟨0, 2⟩).run sineDraft =
    (.ok ⟨0, 4⟩, sineDraft.after (.differentiate ⟨0, 0⟩ ⟨0, 2⟩)) := Prod.ext (by cbv) rfl

end Outcome

end Draft

end DiffGraph
