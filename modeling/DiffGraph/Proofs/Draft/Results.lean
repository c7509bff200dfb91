import DiffGraph.Proofs.Draft.Differentiation
import DiffGraph.Proofs.Draft.Intactness

/-!
What operations yield. Rules may hand on nodes that they were given, that their requests were met
with, or that they found as operands. If they hand on no others, then every node that a request or a
derivative yields is a node of the draft (`Build.serves_perform`,
`Draft.Orderly.owns_differentiate`): those that are known belong to the draft at every time, and
those that are new are stored in it.
-/

set_option autoImplicit false

namespace DiffGraph

open Stateful Draft Option Build

variable {d d' : Draft} {t : String} {id addr address deriv derivative : NodeId}

namespace Build

section Derivatives

theorem owns_of_run_unitIf {isUnit : Bool} (hs : d.Sound)
    (h : (unitIf isUnit t).run d = (.ok derivative, d')) :
    d'.graph.Owns derivative := by
  unfold unitIf at h
  split at h
  · exact owns_of_run_one hs h
  · exact owns_of_run_constant hs h

/-- A derivative is a node of the draft if those of the operands are. -/
theorem owns_derivative_of_run (hor : d.Orderly) (hkn : ∀ {operand tangent : NodeId},
      d.derivatives[(addr, operand)]? = some tangent → d.graph.Owns tangent)
    (h : (differentiateNode addr id).run d = (.ok derivative, d')) :
    d'.graph.Owns derivative := by
  have htan {args tangents : List NodeId} (h : d.HasTangents addr args tangents) :
      ∀ tangent ∈ tangents, d.graph.Owns tangent := by
    intro tangent htangent
    obtain ⟨pos, hpos, rfl⟩ := List.mem_iff_getElem.mp htangent
    exact hkn (h.get (h.length_eq ▸ hpos) hpos)
  obtain ⟨n, s, hf, hks⟩ := ok_of_run_bind h
  obtain ⟨hn, rfl⟩ := ok_of_run_node hf
  split at hks
  · exact owns_of_run_constant hor.sound hks
  · exact owns_of_run_unitIf hor.sound hks
  · exact owns_of_run_unitIf hor.sound hks
  · cases hks
  next operator args hk =>
    split at hks
    · exact owns_of_run_unitIf hor.sound hks
    have howd : ∀ operand ∈ args, s.graph.Owns operand := fun operand hop ↦
      Graph.owns_operand hn (by rwa [Node.operands, hk])
    have hrebuild (hrs : (do
        let tangents ← args.mapM (tangent addr)
        rebuild operator n.type tangents : Build NodeId).run s = (.ok derivative, d')) :
        d'.graph.Owns derivative := by
      obtain ⟨tangents, s', hr, hrebuild⟩ := ok_of_run_bind hrs
      obtain ⟨-, rfl⟩ := ok_of_run_mapM_tangent hr
      exact (rebuild_grants _ _ _ _).owns hor hrebuild
    cases operator with
    | registered name pos =>
      obtain ⟨_, s', hg, hrus⟩ := ok_of_run_bind hks
      obtain ⟨rfl, rfl⟩ := ok_of_run_get hg
      split at hrus
      · obtain ⟨_, _, -, hthrow⟩ := ok_of_run_bind hrus
        cases hthrow
      next rule hru =>
        obtain ⟨ov, hov, hderivative⟩ := bind_eq_some_iff.mp hru
        have hconfined := hor.handsOn ov (Registry.mem_of_overload? hov)
        obtain ⟨tangents, s, hr, hcarried⟩ := ok_of_run_bind hrus
        obtain ⟨hhas, rfl⟩ := ok_of_run_mapM_tangent hr
        obtain ⟨later, hl, hown⟩ := Plan.owns_of_run serves_request
          (hconfined.derivative rule hderivative args tangents) hor
          (List.forall_mem_append.mpr ⟨howd, htan hhas⟩) hcarried
        exact hown derivative hl
    | member | index | construct => exact hrebuild hks

end Derivatives

end Build

namespace Draft

/-- What is differentiated with respect to. A read stands for the address it reads. -/
def variableOf (d : Draft) (addr : NodeId) : NodeId :=
  match (d.graph.node? addr).map Node.kind with
  | some (.read src) => src
  | _ => addr

theorem owns_variableOf (h : d.graph.Owns addr) : d.graph.Owns (d.variableOf addr) := by
  obtain ⟨n, hn⟩ := Graph.owns_iff_node?.mp h
  unfold variableOf
  rw [hn, map_some]
  split
  next source hk =>
    refine Graph.owns_operand hn ?_
    rw [Node.operands, some.inj hk]
    exact List.mem_cons_self
  next => exact h

end Draft

namespace Build

/-- The walk of a differentiation keeps derivatives in order. -/
theorem forM_differentiateOnce_ponders (addr : NodeId) (parts : List NodeId) (d : Draft) :
    PondersOn addr d ((parts.forM fun part ↦ do
      let _ ← differentiateOnce addr part).run d).2 :=
  moves_forM (fun _ _ _ ↦ moves_bind (differentiateOnce_ponders _ _ _) fun _ _ _ ↦ moves_pure _ _) d

theorem run_derivative? (addr id : NodeId) (d : Draft) :
    (derivative? addr id).run d = (.ok d.derivatives[(addr, id)]?, d) :=
  run_get_bind

/-- A derivative was known before, or else all nodes below are differentiated first. -/
theorem ok_of_run_differentiate (h : (differentiate address id).run d = (.ok deriv, d')) :
    d.graph.Owns address ∧ d.graph.Owns id ∧
    (∃ tgt, d.graph.node? (d.variableOf address) = some tgt ∧ tgt.isAddress = true) ∧
    ((d.derivatives[(d.variableOf address, id)]? = some deriv ∧ d' = d) ∨
      d.derivatives[(d.variableOf address, id)]? = none ∧ ∃ middle,
        ((d.graph.closure Node.isComputed id).forM fun part ↦ do
          let _ ← differentiateOnce (d.variableOf address) part).run d = (.ok ⟨⟩, middle) ∧
        (differentiateOnce (d.variableOf address) id).run middle = (.ok deriv, d')) := by
  unfold differentiate at h
  obtain ⟨_, s, hchecked, hrs⟩ := ok_of_run_bind h
  obtain ⟨how, rfl⟩ := ok_of_run_checkOwned hchecked
  obtain ⟨_, s, hchecked', hns⟩ := ok_of_run_bind hrs
  obtain ⟨howns', rfl⟩ := ok_of_run_checkOwned hchecked'
  obtain ⟨n, s, hf, haddr⟩ := ok_of_run_bind hns
  obtain ⟨hn, rfl⟩ := ok_of_run_node hf
  extract_lets source at haddr
  have hsrc : source = s.variableOf address := by
    unfold source variableOf
    rw [hn, map_some]
    cases n.kind <;> rfl
  clear_value source
  subst hsrc
  obtain ⟨tgt, s', hf', hkn⟩ := ok_of_run_bind haddr
  obtain ⟨htg, rfl⟩ := ok_of_run_node hf'
  split at hkn
  · cases hkn
  next hisAddress =>
    refine ⟨how, howns', ⟨tgt, htg, by simpa using hisAddress⟩, ?_⟩
    rw [run_bind_of_ok (run_derivative? _ _ _)] at hkn
    cases hderivative : s'.derivatives[(s'.variableOf address, id)]? with
    | some m =>
      rw [hderivative] at hkn
      obtain ⟨rfl, rfl⟩ := ok_of_run_pure hkn
      exact .inl ⟨rfl, rfl⟩
    | none =>
      rw [hderivative] at hkn
      obtain ⟨_, s, hg, hps⟩ := ok_of_run_bind hkn
      obtain ⟨rfl, rfl⟩ := ok_of_run_get hg
      obtain ⟨_, middle, hmid, hla⟩ := ok_of_run_bind hps
      exact .inr ⟨rfl, middle, hmid, hla⟩

end Build

namespace Draft

/-- Known derivatives are nodes of the draft. -/
theorem Derived.owns_derivative (h : d.Derived) (hhandsOn : d.operators.HandsOn)
    (hkn : d.derivatives[(addr, id)]? = some derivative) :
    d.graph.Owns derivative := by
  refine (h.known_induction (P := fun d _ _ derivative ↦ d.operators.HandsOn →
    d.graph.Owns derivative) hkn ?_ ?_).2 hhandsOn
  · intro d reached d' addr id deriv hs _ hkn hr hla hrc hhandsOn
    have hhandsOn := hrc.operators ▸ hhandsOn
    exact hla.graph.owns (owns_derivative_of_run ⟨hs, hhandsOn⟩ (fun h ↦ hkn h hhandsOn) hr)
  · intro older newer _ _ _ _ hrc _ _ hold hhandsOn
    exact hrc.graph.owns (hold (hrc.operators ▸ hhandsOn))

theorem Orderly.owns_differentiateOnce (hor : d.Orderly) (hder : d.Derived)
    (h : (Build.differentiateOnce addr id).run d = (.ok derivative, d')) :
    d'.graph.Owns derivative := by
  rw [Build.differentiateOnce, run_bind_of_ok (run_derivative? _ _ _)] at h
  cases hf : d.derivatives[(addr, id)]? with
  | some k =>
    rw [hf] at h
    obtain ⟨rfl, rfl⟩ := ok_of_run_pure h
    exact hder.owns_derivative hor.handsOn hf
  | none =>
    rw [hf] at h
    obtain ⟨built, s, hbuilt, hrs⟩ := ok_of_run_bind h
    have hown := owns_derivative_of_run hor
      (fun hkn ↦ hder.owns_derivative hor.handsOn hkn) hbuilt
    cases hrs
    exact hown

/-- Differentiation yields a node of the draft. -/
theorem Orderly.owns_differentiate (hor : d.Orderly) (hder : d.Derived)
    (h : (Build.differentiate addr id).run d = (.ok derivative, d')) :
    d'.graph.Owns derivative := by
  obtain ⟨howd, -, -, ⟨hkn, rfl⟩ | ⟨-, middle, hwalk, hla⟩⟩ := ok_of_run_differentiate h
  · exact hder.owns_derivative hor.handsOn hkn
  · obtain ⟨⟨hevolves, hs, hder⟩, -⟩ := forM_differentiateOnce_ponders
      (d.variableOf addr) _ d (owns_variableOf howd) hor.sound hder
    rw [hwalk] at hevolves hs hder
    exact (hor.later hs hevolves.precedes).owns_differentiateOnce hder hla

end Draft

end DiffGraph
