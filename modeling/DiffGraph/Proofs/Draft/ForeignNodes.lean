import DiffGraph.Proofs.Draft.Ownership
import DiffGraph.Proofs.Draft.Sweeps

/-!
How far nodes of other drafts get. Requests, derivatives, substitutions and contributions to
gradients report the nodes they are given (`Draft.ReportsForeign`), and yield nodes of the draft if
the rules of the operators do not bring in others (`Draft.YieldsOwn`). Two operations take nodes as
they are: a substitution does not look at a value that is bound to the very read it is given, and a
total does not look at the node, at a single contribution or at a total that is known
(`Draft.PassesForeign`).
-/

set_option autoImplicit false

namespace DiffGraph

open List Stateful Draft Build Reverse Except

variable {d draft d' after : Draft} {id first : NodeId} {rest : List NodeId}

namespace Build

variable {a b : NodeId}

/-- Nodes that have a sum are nodes of the draft, and so is the sum. -/
theorem owns_of_run_sumWithin {depth : Nat} (hor : d.Orderly)
    (h : (sumWithin depth a b).run d = (.ok id, d')) :
    d.graph.Owns a ∧ d.graph.Owns b ∧ d'.graph.Owns id := by
  cases depth with
  | zero =>
    have hgiven := (request_reports (.apply "+" [.node a, .node b])).owns_of_ok h
    exact ⟨hgiven a mem_cons_self, hgiven b (mem_cons_of_mem _ mem_cons_self),
      serves_request.owns hor h⟩
  | succ depth =>
    rw [sumWithin] at h
    obtain ⟨t, s, ht, hos⟩ := ok_of_run_bind h
    obtain ⟨⟨first, hfst, -⟩, rfl⟩ := ok_of_run_typeOf ht
    obtain ⟨other, s', ho, hresolved⟩ := ok_of_run_bind hos
    obtain ⟨⟨second, hsnd, -⟩, rfl⟩ := ok_of_run_typeOf ho
    have ha := Graph.owns_of_node? hfst
    have hb := Graph.owns_of_node? hsnd
    refine ⟨ha, hb, ?_⟩
    rw [run_get_bind] at hresolved
    split at hresolved
    · exact serves_request.owns hor hresolved
    obtain ⟨zero, s, hz, hleft⟩ := ok_of_run_bind hresolved
    obtain ⟨-, rfl⟩ := ok_of_run_query hz
    split at hleft
    · obtain ⟨rfl, rfl⟩ := ok_of_run_pure hleft
      exact hb
    obtain ⟨zero', s', hzero', hright⟩ := ok_of_run_bind hleft
    obtain ⟨-, rfl⟩ := ok_of_run_query hzero'
    split at hright
    · obtain ⟨rfl, rfl⟩ := ok_of_run_pure hright
      exact ha
    obtain ⟨defn, s, hlk, hslots⟩ := ok_of_run_bind hright
    obtain ⟨-, rfl⟩ := ok_of_run_query hlk
    split at hslots
    · exact serves_request.owns hor hslots
    · obtain ⟨parts, s, hps, hconstruct⟩ := ok_of_run_bind hslots
      refine serves_request.owns (hor.run (Enlarges.leads ?_) hps) hconstruct
      refine moves_mapM (fun op _ s ↦ ?_) _
      exact enlarges (fun h ↦ (h.slot _ _).bind fun _ ↦ (h.slot _ _).bind fun _ ↦
        h.sumWithin _ _ _) _

/-- A single contribution is passed on. Several contributions are nodes of the draft if they have a
sum, and so is their sum. -/
theorem owns_of_run_foldlM_sum (hor : d.Orderly)
    (h : (rest.foldlM sum first).run d = (.ok id, after)) :
    (rest = [] ∧ id = first ∧ after = d) ∨
      ((∀ c ∈ first :: rest, after.graph.Owns c) ∧ after.graph.Owns id) := by
  induction rest generalizing d first with
  | nil =>
    obtain ⟨rfl, rfl⟩ := ok_of_run_pure h
    exact .inl ⟨rfl, rfl, rfl⟩
  | cons next rest ih =>
    obtain ⟨subtotal, s, hsum, hrs⟩ := ok_of_run_foldlM_cons h
    have hwithin := (run_get_bind).symm.trans hsum
    obtain ⟨hfst, hnx, hsubtotal⟩ := owns_of_run_sumWithin hor hwithin
    have hl := (enlarges (·.sum first next) d).precedes hsum hor.sound
    have hs := hor.run (enlarges (·.sum first next) d).leads hsum
    have hla : s.Precedes after :=
      (enlarges (fun h ↦ .foldlM (fun a b _ ↦ h.sum a b) _) _).precedes hrs hs.sound
    refine .inr ⟨?_, ?_⟩
    · refine forall_mem_cons.mpr ⟨(hl.trans hla).graph.owns hfst,
        forall_mem_cons.mpr ⟨(hl.trans hla).graph.owns hnx, fun c ham ↦ ?_⟩⟩
      rcases ih hs hrs with ⟨rfl, -, -⟩ | ⟨hall, -⟩
      · exact absurd ham not_mem_nil
      · exact hall c (mem_cons_of_mem _ ham)
    · rcases ih hs hrs with ⟨-, rfl, rfl⟩ | ⟨-, hid⟩
      · exact hsubtotal
      · exact hid

end Build

/-- The accumulator holds nodes of the graph. -/
structure Accumulator.OwnedBy (acc : Accumulator) (g : Graph) : Prop where
  pending : ∀ {id c : NodeId}, c ∈ acc.pending id →
    g.Owns id ∧ g.Owns c
  totals : ∀ {id total : NodeId}, acc.totals[id]? = some total →
    g.Owns id ∧ g.Owns total

namespace Accumulator

variable {acc accumulator : Accumulator} {g graph : Graph}

theorem ownedBy_iff : acc.OwnedBy g ↔ acc.Relates fun id amount ↦ g.Owns id ∧ g.Owns amount :=
  ⟨fun h ↦ ⟨fun _ _ ↦ h.pending, fun _ _ ↦ h.totals⟩,
    fun h ↦ ⟨fun ham ↦ h.pending ham, fun htot ↦ h.totals htot⟩⟩

theorem OwnedBy.later (h : acc.OwnedBy g) {newer : Graph}
    (hl : g.Extends newer) : acc.OwnedBy newer :=
  ownedBy_iff.mpr ((ownedBy_iff.mp h).imp fun how ↦ how.imp hl.owns hl.owns)

theorem OwnedBy.add (h : acc.OwnedBy graph) {tgt c : NodeId}
    (htg : graph.Owns tgt) (ham : graph.Owns c) :
    (acc.add tgt c).OwnedBy graph :=
  ownedBy_iff.mpr ((ownedBy_iff.mp h).add ⟨htg, ham⟩)

theorem OwnedBy.take (h : acc.OwnedBy graph) (id : NodeId) : (acc.take id).OwnedBy graph :=
  ownedBy_iff.mpr ((ownedBy_iff.mp h).take id)

theorem OwnedBy.close (h : acc.OwnedBy graph) {total : NodeId} (hid : graph.Owns id)
    (htot : graph.Owns total) : (acc.close id total).OwnedBy graph :=
  ownedBy_iff.mpr ((ownedBy_iff.mp h).close ⟨hid, htot⟩)

end Accumulator

namespace Reverse

variable {acc accumulator : Accumulator} {tgt c amount : NodeId}

/-- Contributions to and of nodes of other drafts are reported. -/
theorem push_reports (acc : Accumulator) (h : ∃ id ∈ [tgt, c], ¬d.graph.Owns id) :
    ∃ id ∈ [tgt, c], ¬d.graph.Owns id ∧ (push tgt c).run ⟨d, acc⟩ =
        (.error (.foreignNode id.index), ⟨d, acc⟩) := by
  by_cases htg : d.graph.Owns tgt
  · have ham : ∃ id ∈ [c], ¬d.graph.Owns id := by
      obtain ⟨id, hid, how⟩ := h
      rcases mem_cons.mp hid with rfl | hid
      · exact absurd htg how
      · exact ⟨id, hid, how⟩
    obtain ⟨id, hid, how, hr⟩ := checkOwned_reports c ham
    refine ⟨id, mem_cons_of_mem _ hid, how, ?_⟩
    have hchecked : (onDraft (Build.checkOwned tgt)).run ⟨d, acc⟩ = _ :=
      run_onDraft (run_checkOwned_of_owns htg)
    rw [push, run_bind_of_ok hchecked]
    exact run_bind_of_error (run_onDraft hr)
  · refine ⟨tgt, mem_cons_self, htg, ?_⟩
    obtain ⟨id, hid, -, hr⟩ := checkOwned_reports tgt ⟨tgt, mem_cons_self, htg⟩
    obtain rfl := mem_singleton.mp hid
    exact run_bind_of_error (run_onDraft hr)

/-- Contributions fill the accumulator with nodes of the draft. -/
theorem push_ownedBy (h : acc.OwnedBy d.graph) (tgt c : NodeId) :
    ((push tgt c).run ⟨d, acc⟩).2.accumulator.OwnedBy d.graph := by
  rcases hr : (push tgt c).run ⟨d, acc⟩ with ⟨error | _, d'⟩
  · obtain ⟨rfl, -⟩ := error_of_run_push hr
    exact h
  · obtain ⟨n, hn, ham, -, rfl⟩ := ok_of_run_push hr
    dsimp only
    split
    · exact h
    · exact h.add (Graph.owns_of_node? hn) ham

/-- Sums are over nodes of the draft, and are nodes of the draft, if contributions are. -/
theorem owns_of_run_sumUp (hor : d.Orderly) {amounts : List NodeId}
    (hamounts : ∀ c ∈ amounts, d.graph.Owns c) {total : NodeId}
    (h : (sumUp id amounts).run d = (.ok total, d')) : d'.graph.Owns total := by
  cases amounts with
  | nil =>
    obtain ⟨t, s, ht, hz⟩ := ok_of_run_bind h
    obtain ⟨-, rfl⟩ := ok_of_run_typeOf ht
    exact owns_of_run_constant hor.sound hz
  | cons first rest =>
    rcases owns_of_run_foldlM_sum hor h with ⟨-, rfl, rfl⟩ | ⟨-, htot⟩
    · exact hamounts _ mem_cons_self
    · exact htot

/-- A node that has a total is one of the draft. -/
theorem owns_of_run_sumUp_pending (h : acc.OwnedBy d.graph) {total : NodeId}
    (hr : (sumUp id (acc.pending id)).run d = (.ok total, d')) :
    d.graph.Owns id := by
  cases hpen : acc.pending id with
  | nil =>
    rw [hpen] at hr
    obtain ⟨t, s, ht, -⟩ := ok_of_run_bind hr
    obtain ⟨⟨n, hn, -⟩, -⟩ := ok_of_run_typeOf ht
    exact Graph.owns_of_node? hn
  | cons first rest =>
    have hfst : first ∈ acc.pending id := hpen ▸ mem_cons_self
    exact (h.pending hfst).1

/-- Totals of what was contributed are nodes of the draft, and so is all that is left. -/
theorem total_ownedBy (hor : d.Orderly) (h : acc.OwnedBy d.graph) (id : NodeId)
    {outcome : Except Error NodeId} {d' : Sweep} (hr : (total id).run ⟨d, acc⟩ = (outcome, d')) :
    d'.accumulator.OwnedBy d'.draft.graph ∧
      ∀ total, outcome = .ok total → d'.draft.graph.Owns total := by
  have hld := (total_enlarges id ⟨d, acc⟩).leads
  rw [hr] at hld
  have hpr : d.Precedes d'.draft := (hld hor.sound).precedes
  rcases outcome with error | found
  · obtain ⟨last, -, rfl⟩ := error_of_run_total hr
    exact ⟨(h.take id).later hpr.graph, fun _ hok ↦ by cases hok⟩
  · rcases ok_of_run_total hr with ⟨hkn, rfl⟩ | ⟨-, last, hsum, rfl⟩
    · exact ⟨h, fun total heq ↦ ok.inj heq ▸ (h.totals hkn).2⟩
    · have hown := owns_of_run_sumUp hor (fun _ ham ↦ (h.pending ham).2) hsum
      refine ⟨(h.later hpr.graph).close (hpr.graph.owns ?_) hown, fun _ hok ↦ ok.inj hok ▸ hown⟩
      exact owns_of_run_sumUp_pending h hsum

/-- Several contributions have a total only if they are nodes of the draft. -/
theorem owns_of_run_total_several (hor : d.Orderly) {second total : NodeId}
    {d' : Sweep} (hopen : acc.totals[id]? = none) (hpen : acc.pending id = first :: second :: rest)
    (h : (Reverse.total id).run ⟨d, acc⟩ = (.ok total, d')) :
    ∀ amount ∈ total :: acc.pending id, d'.draft.graph.Owns amount := by
  rcases ok_of_run_total h with ⟨hkn, -⟩ | ⟨-, last, hsum, rfl⟩
  · cases hopen.symm.trans hkn
  · dsimp only at hsum
    rw [hpen] at hsum ⊢
    rcases owns_of_run_foldlM_sum hor hsum with ⟨hnil, -, -⟩ | ⟨hall, htot⟩
    · cases hnil
    · exact forall_mem_cons.mpr ⟨htot, hall⟩

/-- The total of a node of another draft is not known, and nothing was contributed to it: its type
is asked for, which it does not have. -/
theorem run_total_of_foreign (h : acc.OwnedBy d.graph) (how : ¬d.graph.Owns id) :
    (total id).run ⟨d, acc⟩ = (.error (.foreignAccess id.index d.name), ⟨d, acc.take id⟩) := by
  have hopen : acc.totals[id]? = none := by
    by_contra hkn
    obtain ⟨k, hkn⟩ := Option.ne_none_iff_exists'.mp hkn
    exact how (h.totals hkn).1
  have hno : acc.pending id = [] := eq_nil_iff_forall_not_mem.mpr fun c ham ↦ how (h.pending ham).1
  have hn : d.graph.node? id = none := by
    rw [Graph.owns_iff_node?, not_exists] at how
    exact Option.eq_none_iff_forall_ne_some.mpr how
  have ht : (Build.typeOf id).run d = (.error (.foreignAccess id.index d.name), d) := by
    rw [Build.typeOf]
    refine run_bind_of_error ?_
    rw [Build.node, run_query, Draft.node, hn]
  have hsum : (sumUp id []).run d = (.error (.foreignAccess id.index d.name), d) :=
    run_bind_of_error ht
  exact run_total_of_error hopen (hno ▸ hsum)

/-- A single contribution is its own total, whoever has issued it. -/
theorem run_total_of_single (hopen : acc.totals[id]? = none) (h : acc.pending id = [c]) :
    (total id).run ⟨d, acc⟩ = (.ok c, ⟨d, acc.close id c⟩) := by
  refine run_total hopen ?_
  rw [h]
  rfl

end Reverse

namespace Draft

/-- Nodes that the draft did not issue are reported where they are looked at. -/
structure ReportsForeign (d : Draft) : Prop where
  requests : ∀ w, d.Reports (Build.request w) w.given
  derivatives : ∀ addr id, d.Reports (Build.differentiate addr id) [addr, id]
  substitutions : ∀ bs id, d.Reports (Build.substitute bs id) [id]
  contributions : ∀ acc tgt c, (∃ id ∈ [tgt, c], ¬d.graph.Owns id) →
    ∃ id ∈ [tgt, c], ¬d.graph.Owns id ∧
      (Reverse.push tgt c).run ⟨d, acc⟩ =
        (.error (.foreignNode id.index), ⟨d, acc⟩)
  /-- A value is reported if the address accepts writes. It is never written. -/
  values : ∀ addr v, ¬d.graph.Owns v →
    (∃ error, (Build.request (.write addr (.node v))).run d = (.error error, d)) ∧
    (d.AcceptsWrites addr → (Build.request (.write addr (.node v))).run d =
      (.error (.foreignNode v.index), d))
  /-- The element that should take the value stays. -/
  elements : ∀ addr v element middle,
    (Build.request (.index addr (d.elementsWritten.getD addr 0))).run d =
      (.ok element, middle) → middle.AcceptsWrites element → ¬middle.graph.Owns v →
    (Build.request (.writeNext addr (.node v))).run d =
      (.error (.foreignNode v.index), middle)
  /-- Values of bindings are reported by the part of the expression that needs them. What was made
  before it stays. -/
  bound : ∀ bs root earlier part later k now, d.graph.Owns root →
    d.graph.closure Node.isComputed root = earlier ++ part :: later →
    (Build.substituteParts bs earlier ∅).run d = (.ok k, now) →
    (∃ id ∈ d.needed bs k part, ¬now.graph.Owns id) →
    ∃ id ∈ d.needed bs k part, ¬now.graph.Owns id ∧
      (Build.substitute bs root).run d = (.error (.foreignNode id.index), now)

/-- What operations yield are nodes of the draft. -/
structure YieldsOwn (d : Draft) : Prop where
  arguments : ∀ name id d', (Build.argument name).run d = (.ok id, d') →
    d'.graph.Owns id
  requests : ∀ w id d', (Build.request w).run d = (.ok id, d') →
    d'.graph.Owns id
  derivatives : ∀ addr id deriv d',
    (Build.differentiate addr id).run d = (.ok deriv, d') →
    d'.graph.Owns deriv
  /-- All values that a substitution takes are nodes of the draft, but for one: that which is bound
  to the read that is given. -/
  substitutions : ∀ bs root id d',
    (Build.substitute bs root).run d = (.ok id, d') →
    (d'.graph.Owns id ∨ d.Takes bs root id) ∧
    ∀ part ∈ d.graph.closure Node.isComputed root, ∀ n addr v path,
      d.graph.node? part = some n → n.kind = .read addr →
      d.binding? bs addr = some (v, path) →
      d'.graph.Owns v ∨ (part = root ∧ path = [])
  contributions : ∀ acc tgt c, acc.OwnedBy d.graph →
    ((Reverse.push tgt c).run ⟨d, acc⟩).2.accumulator.OwnedBy d.graph
  totals : ∀ acc id outcome d', acc.OwnedBy d.graph →
    (Reverse.total id).run ⟨d, acc⟩ = (outcome, d') →
    d'.accumulator.OwnedBy d'.draft.graph ∧
      ∀ total, outcome = .ok total → d'.draft.graph.Owns total
  /-- Several contributions are summed up only if all of them are nodes of the draft. -/
  sums : ∀ acc id first second rest total d', acc.totals[id]? = none →
    acc.pending id = first :: second :: rest →
    (Reverse.total id).run ⟨d, acc⟩ = (.ok total, d') →
    ∀ c ∈ total :: acc.pending id, d'.draft.graph.Owns c

/-- Where nodes are not looked at. -/
structure PassesForeign (d : Draft) : Prop where
  bound : ∀ bs root v, d.Takes bs root v →
    (Build.substitute bs root).run d = (.ok v, d)
  known : ∀ acc id total, acc.totals[id]? = some total →
    (Reverse.total id).run ⟨d, acc⟩ = (.ok total, ⟨d, acc⟩)
  single : ∀ acc id c, acc.totals[id]? = none →
    acc.pending id = [c] → (Reverse.total id).run ⟨d, acc⟩ =
      (.ok c, ⟨d, acc.close id c⟩)
  /-- A node without contributions is not looked at either, and the total aborts. -/
  aborted : ∀ acc id, acc.OwnedBy d.graph → ¬d.graph.Owns id →
    (Reverse.total id).run ⟨d, acc⟩ = (.error (.foreignAccess id.index d.name),
      ⟨d, { acc with contributions := acc.contributions.erase id }⟩)

theorem Reachable.reportsForeign (hd : draft.Reachable) : draft.ReportsForeign where
  requests := request_reports
  derivatives := differentiate_reports
  substitutions := substitute_reports
  contributions accumulator _ _ := push_reports accumulator
  values address value hfor := by
    have hw : (Build.request (.write address (.node value))).run draft =
        (Build.write address (.node value)).run draft := by
      rw [Build.request, run_get_bind, perform_eq]
      rfl
    refine ⟨hw ▸ write_fails_of_foreign hfor, fun hacc ↦ ?_⟩
    obtain ⟨id, hid, -, hr⟩ := write_reports_value hacc ⟨value, mem_cons_self, hfor⟩
    obtain rfl := mem_singleton.mp hid
    exact hw.trans hr
  elements _ _ _ _ hix hacc hfor := writeNext_reports_value hix hacc hfor
  bound _ _ _ _ _ _ _ how hord hear hfor := hd.sound.substitute_reports how hord hear hfor

theorem Reachable.yieldsOwn (hd : d.Reachable) (hhandsOn : d.operators.HandsOn) : d.YieldsOwn := by
  have hor : d.Orderly := ⟨hd.sound, hhandsOn⟩
  constructor
  case arguments =>
    intro name id d' h
    obtain ⟨hf, rfl⟩ := ok_of_run_query h
    unfold Draft.argument at hf
    split at hf
    next found hls =>
      obtain ⟨n, -, hn, -⟩ := hd.sound.arguments (mem_of_lookup hls)
      exact Graph.owns_iff_node?.mpr ⟨n, ok.inj hf ▸ hn⟩
    next => cases hf
  case requests => exact fun w id d' h ↦ serves_request.owns hor h
  case derivatives =>
    exact fun addr id deriv d' h ↦ hor.owns_differentiate hd.derived h
  case substitutions => exact fun bs root id d' h ↦ hor.owns_substitute h
  case contributions => exact fun acc tgt c h ↦ push_ownedBy h tgt c
  case totals =>
    exact fun acc id outcome d' h hr ↦ total_ownedBy hor h id hr
  case sums =>
    intro acc id first second rest total d' hopen hpen hr
    exact owns_of_run_total_several hor hopen hpen hr

theorem passesForeign (d : Draft) : d.PassesForeign where
  bound _ _ _ := run_substitute_of_takes
  known _ _ _ h := run_total_known h
  single _ _ _ := run_total_of_single
  aborted _ _ := run_total_of_foreign

/-- Nodes of other drafts are reported where they are looked at, and nodes of the draft are what
operations yield, but for the nodes that substitutions and totals pass on. -/
theorem Reachable.foreign_nodes {draft : Draft} (hdraft : draft.Reachable) :
    draft.ReportsForeign ∧ (draft.operators.HandsOn → draft.YieldsOwn) ∧ draft.PassesForeign :=
  ⟨hdraft.reportsForeign, hdraft.yieldsOwn, draft.passesForeign⟩

/-- A node of another function. -/
theorem exists_foreign : ∃ other : Draft, other.Reachable ∧ other.graph.Owns ⟨1, 0⟩ ∧
    ¬inputDraft.graph.Owns ⟨1, 0⟩ :=
  ⟨(Draft.new 1 "g" .standard .scalars .default).requested [.declare "x" "double" .input],
    .afterAll (.new ..) _, by cbv, fun how ↦ absurd (lists_input.owns_iff.mp how) (by decide)⟩

/-- A read of another function's argument is reported, and what can be read is a node of the
function. -/
theorem Reachable.foreign_nodes_read : ∃ draft other : Draft, draft.Reachable ∧
    draft.operators.HandsOn ∧ other.graph.Owns ⟨1, 0⟩ ∧
    (Build.request (.read ⟨1, 0⟩)).run draft = (.error (.foreignNode 0), draft) ∧
    (Reverse.push ⟨0, 1⟩ ⟨1, 0⟩).run ⟨draft, .empty⟩ = (.error (.foreignNode 0), ⟨draft, .empty⟩) ∧
    draft.YieldsOwn := by
  obtain ⟨other, -, hother, hforeign⟩ := exists_foreign
  have hhandsOn : inputDraft.operators.HandsOn :=
    lists_input.operators ▸ Registry.standard_handsOn
  obtain ⟨hreports, hyields, -⟩ := Reachable.foreign_nodes lists_input.reachable
  obtain ⟨id, hid, -, hread⟩ := hreports.requests (.read ⟨1, 0⟩)
    ⟨⟨1, 0⟩, List.mem_cons_self, hforeign⟩
  obtain rfl := List.mem_singleton.mp hid
  obtain ⟨id, hid, hidForeign, hpush⟩ := hreports.contributions .empty ⟨0, 1⟩ ⟨1, 0⟩
    ⟨⟨1, 0⟩, List.mem_cons_of_mem _ List.mem_cons_self, hforeign⟩
  refine ⟨inputDraft, other, lists_input.reachable, hhandsOn, hother, hread, ?_,
    hyields hhandsOn⟩
  rcases List.mem_cons.mp hid with rfl | hid
  · exact absurd (lists_input.owns_iff.mpr (by decide)) hidForeign
  · obtain rfl := List.mem_singleton.mp hid
    exact hpush

/-- A node of another function comes out of a substitution, and is not reported by a total. -/
theorem exists_foreign_result : ∃ draft other : Draft, draft.Reachable ∧ other.Reachable ∧
    draft.operators.HandsOn ∧ other.graph.Owns ⟨1, 0⟩ ∧ ¬draft.graph.Owns ⟨1, 0⟩ ∧
    (Build.substitute ((∅ : Bindings).insert ⟨0, 0⟩ ⟨1, 0⟩) ⟨0, 1⟩).run draft =
      (.ok ⟨1, 0⟩, draft) ∧
    ((Reverse.total ⟨1, 0⟩).run ⟨draft, .empty⟩).1 =
      .error (.foreignAccess 0 draft.name) := by
  obtain ⟨other, hreachable, hother, hforeign⟩ := exists_foreign
  exact ⟨inputDraft, other, lists_input.reachable, hreachable,
    lists_input.operators ▸ Registry.standard_handsOn, hother, hforeign, by cbv, by cbv⟩

end Draft

end DiffGraph
