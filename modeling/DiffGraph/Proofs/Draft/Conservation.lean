import DiffGraph.Proofs.Draft.SweepOrder

/-!
What becomes of contributions to gradients. A contribution waits at its node until the node is
summed up, and is an addend of the total then (`Accumulator.History.conserved`). So it is not lost
if the node is summed up at all.

The sweep sums up every value that is read or computed and every address that is written to. It does
not sum up writes. A write can stand for the value that was written, and where it does, what flows
into it stays there; nothing else is left over (`Draft.Reachable.adjoint_contributions`).
-/

set_option autoImplicit false

namespace DiffGraph

open List Stateful Build Reverse Option

variable {id tgt target found : NodeId} {sw d' after : Sweep} {copied : Draft} {n : Node}

/-- What can happen to the gradient of a node. -/
inductive Event where
  /-- Something is added to it. -/
  | pushed (tgt c : NodeId)
  /-- It is summed up from what was added to it. -/
  | totalled (id : NodeId) (addends : List NodeId) (total : NodeId)

namespace Accumulator

/-- The events lead from one accumulator to the other. -/
inductive History (start : Accumulator) : List Event → Accumulator → Prop
  | start : History start [] start
  | push {log : List Event} {acc : Accumulator} (h : History start log acc)
      {tgt c : NodeId} (hopen : acc.totals[tgt]? = none) :
      History start (log ++ [.pushed tgt c]) (acc.add tgt c)
  | total {log : List Event} {acc : Accumulator} (h : History start log acc)
      {id total : NodeId} (hopen : acc.totals[id]? = none) {before d' : Draft}
      (hsum : (Reverse.sumUp id (acc.pending id)).run before = (.ok total, d')) :
      History start (log ++ [.totalled id (acc.pending id) total])
        (acc.close id total)

namespace History

variable {start middle last : Accumulator} {log others : List Event} {c amount : NodeId}

theorem trans (h : start.History log middle) (hla : middle.History others last) :
    start.History (log ++ others) last := by
  induction hla with
  | start => rwa [append_nil]
  | push _ hopen ih =>
    rw [← append_assoc]
    exact ih.push hopen
  | total _ hopen hsum ih =>
    rw [← append_assoc]
    exact ih.total hopen hsum

section

variable (h : start.History log last)

include h

/-- Totals stand. -/
theorem total_stands (hkn : start.totals[id]? = some found) : last.totals[id]? = some found := by
  induction h with
  | start => exact hkn
  | push _ _ ih => exact ih
  | @total _ _ _ other _ hopen _ _ _ ih =>
    rw [totals_close]
    split
    next heq => cases (heq ▸ hopen).symm.trans ih
    next => exact ih

/-- What waits at a node was added to it. -/
theorem pushed_of_pending (hsta : start.pending tgt = [])
    (hpen : c ∈ last.pending tgt) : .pushed tgt c ∈ log := by
  induction h with
  | start =>
    rw [hsta] at hpen
    cases hpen
  | @push _ _ _ other m _ ih =>
    rw [pending_add] at hpen
    split at hpen
    next heq =>
      rcases mem_append.mp hpen with hold | hnew
      · exact mem_append_left _ (ih hold)
      · exact mem_append_right _ (by simp [heq, mem_singleton.mp hnew])
    next => exact mem_append_left _ (ih hpen)
  | total _ _ _ ih =>
    rw [pending_close] at hpen
    split at hpen
    · cases hpen
    · exact mem_append_left _ (ih hpen)

/-- A node that is summed up has nothing waiting. -/
theorem pending_of_total (hsta : start.totals[id]? ≠ none → start.pending id = [])
    (hkn : last.totals[id]? ≠ none) : last.pending id = [] := by
  induction h with
  | start => exact hsta hkn
  | @push _ acc _ other _ hopen ih =>
    rw [pending_add]
    split
    next heq => exact absurd (heq ▸ hopen) hkn
    next => exact ih hkn
  | total _ _ _ ih =>
    rw [totals_close] at hkn
    rw [pending_close]
    split at hkn
    next heq => rw [if_pos heq]
    next hne => rw [if_neg hne, ih hkn]

/-- A contribution is an addend of the total, or it still waits. -/
theorem conserved (hpushed : .pushed target c ∈ log) :
    (∃ addends total, .totalled target addends total ∈ log ∧ c ∈ addends ∧
      last.totals[target]? = some total ∧ ∃ before d' : Draft,
        (Reverse.sumUp target addends).run before = (.ok total, d')) ∨
      c ∈ last.pending target := by
  induction h with
  | start => cases hpushed
  | @push log acc _ other m _ ih =>
    rw [pending_add]
    rcases mem_append.mp hpushed with hold | hnew
    · rcases ih hold with ⟨addends, total, hevent, hrs⟩ | hwaits
      · exact .inl ⟨addends, total, mem_append_left _ hevent, hrs⟩
      · right
        split
        · exact mem_append_left _ hwaits
        · exact hwaits
    · obtain ⟨rfl, rfl⟩ := Event.pushed.inj (mem_singleton.mp hnew)
      right
      rw [if_pos rfl]
      exact mem_append_right _ mem_cons_self
  | @total log acc _ other m hopen before d' hsum ih =>
    have hold : .pushed target c ∈ log := by simpa using hpushed
    rw [pending_close, totals_close]
    rcases ih hold with ⟨addends, total, hevent, hm, hkn, hrs⟩ | hwaits
    · refine .inl ⟨addends, total, mem_append_left _ hevent, hm, ?_, hrs⟩
      rw [if_neg, hkn]
      rintro rfl
      cases hopen.symm.trans hkn
    · by_cases heq : other = target
      · subst heq
        exact .inl ⟨_, m, mem_append_right _ mem_cons_self, hwaits, if_pos rfl, before, d', hsum⟩
      · exact .inr (by rwa [if_neg heq])

end

end History

end Accumulator

namespace Accumulator

variable {start acc : Accumulator} {due : NodeId → Prop}

/-- A history leads here in which only such nodes are added to. -/
def Logged (start : Accumulator) (due : NodeId → Prop) (acc : Accumulator) : Prop :=
  ∃ log, start.History log acc ∧ ∀ tgt c, .pushed tgt c ∈ log → due tgt

theorem Logged.refl (start : Accumulator) (due : NodeId → Prop) : start.Logged due start :=
  ⟨[], .start, fun _ _ h ↦ by cases h⟩

theorem Logged.add (h : start.Logged due acc) (c : NodeId)
    (hopen : acc.totals[tgt]? = none) (hdue : due tgt) :
    start.Logged due (acc.add tgt c) := by
  obtain ⟨log, hlog, hpushed⟩ := h
  refine ⟨_, hlog.push hopen, fun other m ho ↦ ?_⟩
  rcases mem_append.mp ho with hold | hnew
  · exact hpushed other m hold
  · obtain ⟨rfl, -⟩ := Event.pushed.inj (mem_singleton.mp hnew)
    exact hdue

theorem Logged.close (h : start.Logged due acc) {total : NodeId} {before d' : Draft}
    (hopen : acc.totals[id]? = none)
    (hsum : (Reverse.sumUp id (acc.pending id)).run before = (.ok total, d')) :
    start.Logged due (acc.close id total) := by
  obtain ⟨log, hlog, hpushed⟩ := h
  refine ⟨_, hlog.total hopen hsum, fun other m ho ↦ hpushed other m ?_⟩
  simpa using ho

end Accumulator

namespace Reverse

open Draft

section Sweep

/-- The nodes that gradients flow to: addresses that are written to, and sources of nodes in order.
Constants are none of them. -/
def Due (copied : Draft) (tgt : NodeId) : Prop :=
  ∃ n, copied.graph.node? tgt = some n ∧ n.constant? = none ∧
    ∃ user ∈ copied.order, ∃ m, copied.graph.node? user = some m ∧
      (tgt ∈ m.sources ∨ ∃ v, m.kind = .write tgt v)

/-- The gradient that a visit to the node sums up is summed up. -/
def Finished (copied : Draft) (acc : Accumulator) (id : NodeId) : Prop :=
  ∀ ⦃n tgt⦄, copied.graph.node? id = some n → n.summed? id = some tgt →
    acc.totals[tgt]? ≠ none

theorem Finished.later {first last : Accumulator} {log : List Event} (h : Finished copied first id)
    (hlog : first.History log last) : Finished copied last id := by
  intro n tgt hn hsummed
  obtain ⟨total, htot⟩ := ne_none_iff_exists'.mp (h hn hsummed)
  rw [hlog.total_stands htot]
  exact some_ne_none total

theorem total_known (h : (total id).run sw = (.ok found, d')) :
    d'.accumulator.totals[id]? = some found := by
  rcases ok_of_run_total h with ⟨hkn, rfl⟩ | ⟨-, d, -, rfl⟩
  · exact hkn
  · rw [Accumulator.totals_close, if_pos rfl]

variable {limit : Nat} {operators : Registry} {hpasses : operators.PassesToOperands}
  {start : Accumulator} (hcopied : copied.Sound)

include hcopied

theorem records_push (c : NodeId) (hn : copied.graph.node? tgt = some n)
    (hdue : n.constant? = none → Due copied tgt) :
    Maintains (Watched copied (.strict limit hpasses)) (fun _ _ ↦ True)
      (start.Logged (Due copied)) (push tgt c) := by
  refine maintains_push (watches_watched hcopied fun _ _ _ ↦ trivial).allows c
    (fun d m acc hd hf hvar hlogged hopen ↦ ?_)
    fun _ _ _ _ _ _ ↦ trivial
  cases hf.symm.trans (hd.steps.precedes.graph.node? hn)
  exact hlogged.add c hopen (hdue hvar)

theorem records_source (hid : id ∈ copied.order)
    (hn : copied.graph.node? id = some n) (src : NodeId) (hsrc : src ∈ n.sources) (c : NodeId) :
    Maintains (Watched copied (.strict limit hpasses)) (fun _ _ ↦ True)
      (start.Logged (Due copied)) (push src c) := by
  obtain ⟨m, hf, -⟩ := hcopied.isAddress_source hn hsrc
  refine records_push hcopied c hf fun hvar ↦ ?_
  exact ⟨m, hf, hvar, id, hid, n, hn, .inl hsrc⟩

theorem records_total (id : NodeId) :
    Maintains (Watched copied (.strict limit hpasses)) (fun _ _ ↦ True)
      (start.Logged (Due copied)) (total id) :=
  maintains_total (watches_watched hcopied fun _ _ _ ↦ trivial) fun _ _ _ _ h hopen hsum ↦
    h.close hopen hsum

theorem records_seed (seeds : Partners) :
    Maintains (Watched copied (.strict limit hpasses)) (fun _ _ ↦ True)
      (start.Logged (Due copied)) (seed seeds copied.dependencies.inOrder) := by
  refine maintains_seed (watches_watched hcopied fun _ _ _ ↦ trivial) seeds
    fun id hid d n addr v hd hf hk c ↦ ?_
  replace hid : id ∈ copied.order := Array.mem_toList_iff.mpr hid
  obtain ⟨n, hn⟩ := hcopied.node?_of_mem_order hid
  cases hf.symm.trans (hd.steps.precedes.graph.node? hn)
  obtain ⟨tgt, -, -, -, -, -, htg, -⟩ := hcopied.write_target hn hk
  refine records_push hcopied c htg fun hvar ↦ ?_
  exact ⟨tgt, htg, hvar, id, hid, _, hn, .inr ⟨v, hk⟩⟩

/-- A visit adds to the sources of the node and sums up its gradient. -/
theorem run_backward (hid : id ∈ copied.order)
    (hsw : Watched copied (.strict limit hpasses) sw.draft ∧
      start.Logged (Due copied) sw.accumulator)
    (hr : (backward id).run sw = (.ok ⟨⟩, d')) :
    (Watched copied (.strict limit hpasses) d'.draft ∧
      start.Logged (Due copied) d'.accumulator) ∧ Finished copied d'.accumulator id := by
  obtain ⟨n, hn⟩ := hcopied.node?_of_mem_order hid
  refine ⟨(maintains_visit hcopied hn (fun _ _ _ ↦ trivial) (records_source hcopied hid hn)
    (fun tgt _ ↦ records_total hcopied tgt) hsw).1 hr, fun m tgt hf hsummed ↦ ?_⟩
  cases hn.symm.trans hf
  rw [run_visit (hsw.1.steps.precedes.graph.node? hn), hsummed] at hr
  obtain ⟨gradient, middle, htot, hrs⟩ := ok_of_run_bind hr
  have hmid := ((records_total hcopied tgt hsw).1 htot).1
  -- From here on the total stands.
  obtain ⟨-, log, hlog, -⟩ := (maintains_passOn_sources hcopied (fun _ _ _ ↦ trivial)
    (records_source hcopied hid hn) gradient
    ⟨hmid, Accumulator.Logged.refl middle.accumulator _⟩).1 hrs
  rw [hlog.total_stands (total_known htot)]
  exact some_ne_none gradient

/-- Visits one after another. -/
theorem run_sweep {ids : List NodeId} (hids : ∀ id ∈ ids, id ∈ copied.order)
    (hsw : Watched copied (.strict limit hpasses) sw.draft)
    (hr : (ids.forM backward).run sw = (.ok ⟨⟩, d')) :
    sw.accumulator.Logged (Due copied) d'.accumulator ∧
      ∀ id ∈ ids, Finished copied d'.accumulator id := by
  induction ids generalizing sw with
  | nil =>
    obtain ⟨-, rfl⟩ := ok_of_run_pure hr
    exact ⟨.refl _ _, fun _ h ↦ by cases h⟩
  | cons id ids ih =>
    obtain ⟨hid, hids⟩ := forall_mem_cons.mp hids
    obtain ⟨middle, hfst, hrs⟩ := ok_of_run_forM_cons hr
    obtain ⟨⟨hmid, log, hlog, hdue⟩, hfinished⟩ := run_backward hcopied hid ⟨hsw, .refl _ _⟩ hfst
    obtain ⟨⟨others, hos, hdue'⟩, hall⟩ := ih hids hmid hrs
    refine ⟨⟨log ++ others, hlog.trans hos, fun tgt c hpushed ↦ ?_⟩, ?_⟩
    · exact (mem_append.mp hpushed).elim (hdue tgt c) (hdue' tgt c)
    · exact forall_mem_cons.mpr ⟨hfinished.later hos, hall⟩

end Sweep

end Reverse

namespace Draft

variable {p primal : Draft} {owner : Nat} {ex excluded : List String}

theorem AdjointRun.sound_copied (run : p.AdjointRun owner ex) (hpm : p.Sound) : run.copied.Sound :=
  hpm.sound_copied ((run_bind_of_ok run.declare).trans run.copy)

theorem AdjointRun.guarded_copied (run : p.AdjointRun owner ex)
    (hpasses : p.operators.PassesToOperands) :
    run.copied.Guarded (.strict p.options.replacementLimit hpasses) := by
  exact (adjointBody_guards p ex (guarded_adjointStart hpasses owner)).1
    ((run_bind_of_ok run.declare).trans run.copy)

/-- A write that stands for the value that was written, in something that is written. -/
def UsesWrite (d : Draft) (id : NodeId) : Prop :=
  id ∈ d.uses ∧ ∃ n addr v, d.graph.node? id = some n ∧
    n.kind = .write addr v

/-- Gradients flow to what is summed up in the sweep and to writes. -/
theorem Sound.usesWrite_of_due (hcopied : copied.Sound) {acc : Accumulator}
    (hfinished : ∀ id ∈ copied.order, Reverse.Finished copied acc id)
    (hdue : Reverse.Due copied target) (hopen : acc.totals[target]? = none) :
    copied.UsesWrite target := by
  obtain ⟨n, hn, hvar, user, huser, m, hf, hflow⟩ := hdue
  rcases hflow with hsrc | ⟨v, hk⟩
  · have hop : target ∈ copied.graph.operands user := by
      rw [Graph.operands_of_node? hf]
      exact Node.mem_operands_of_mem_sources hsrc
    have huse : target ∈ copied.uses := mem_flatMap.mpr ⟨user, huser, hop⟩
    have hnot : n.summed? target ≠ some target := fun hsummed ↦
      hfinished target (mem_order_of_mem_uses huse) hn hsummed hopen
    obtain ⟨other, ho, hv⟩ := hcopied.isAddress_source hf hsrc
    cases hn.symm.trans ho
    cases hk : n.kind with
    | constant v => simp [Node.constant?, hk] at hvar
    | argument name dir => cases (hcopied.argument hn hk).1.symm.trans hv
    | read addr => simp [Node.summed?, hk] at hnot
    | expression op args => simp [Node.summed?, hk, hv] at hnot
    | write addr v => exact ⟨huse, n, addr, v, hn, hk⟩
  · exact absurd hopen (hfinished user huser hf (by rw [Node.summed?, hk]))

/-- No contribution is lost but those to writes. When the sweep of an adjoint is over, every
contribution to a node that is no constant is an addend of the total of the node, or it waits at a
write that is used as a value. Nothing waits at any other node. -/
theorem Reachable.adjoint_contributions (hprimal : primal.Reachable)
    (hpasses : primal.operators.PassesToOperands) {result : Draft} {types : TypeTable}
    (h : primal.adjoint owner excluded = (.ok result, types)) :
    ∃ run : primal.AdjointRun owner excluded, result = run.last.draft ∧
      (∃ log, Accumulator.empty.History log run.swept.accumulator) ∧
      (∀ log, Accumulator.empty.History log run.swept.accumulator →
        ∀ target amount, .pushed target amount ∈ log →
          (∃ addends total, .totalled target addends total ∈ log ∧ amount ∈ addends ∧
            run.swept.accumulator.totals[target]? = some total ∧ ∃ before after : Draft,
              (Reverse.sumUp target addends).run before = (.ok total, after)) ∨
          amount ∈ run.swept.accumulator.pending target ∧ run.copied.UsesWrite target) ∧
      ∀ target, run.swept.accumulator.pending target ≠ [] → run.copied.UsesWrite target := by
  obtain ⟨run, rfl⟩ := exists_adjointRun h
  have hcopied := run.sound_copied hprimal.sound
  have hstart : Reverse.Watched run.copied (.strict _ hpasses)
      (⟨run.copied, .empty⟩ : Sweep).draft := ⟨.refl, run.guarded_copied hpasses⟩
  obtain ⟨hseeded, log, hlog, hdue⟩ :=
    (records_seed hcopied _ ⟨hstart, Accumulator.Logged.refl .empty _⟩).1 run.seed
  have hsweep := run.sweep
  rw [array_forM_eq, Array.toList_reverse] at hsweep
  obtain ⟨⟨others, hothers, hdue'⟩, hfinished⟩ := run_sweep hcopied
    (fun id hid ↦ List.mem_reverse.mp hid) hseeded hsweep
  have hhistory := hlog.trans hothers
  have hwaiting (target : NodeId) (hpending : run.swept.accumulator.pending target ≠ []) :
      run.copied.UsesWrite target := by
    obtain ⟨amount, hamount⟩ := List.exists_mem_of_ne_nil _ hpending
    have hpushed := hhistory.pushed_of_pending (Accumulator.pending_empty target) hamount
    refine hcopied.usesWrite_of_due (fun id hid ↦ hfinished id (List.mem_reverse.mpr hid)) ?_ ?_
    · exact (List.mem_append.mp hpushed).elim (hdue target amount) (hdue' target amount)
    · by_contra hknown
      refine hpending (hhistory.pending_of_total (fun hstart ↦ ?_) hknown)
      exact absurd (Accumulator.totals_empty target) hstart
  refine ⟨run, rfl, ⟨_, hhistory⟩, fun log hlog target amount hpushed ↦ ?_, hwaiting⟩
  refine (hlog.conserved hpushed).imp_right fun hwaits ↦ ⟨hwaits, hwaiting target ?_⟩
  exact List.ne_nil_of_mem hwaits

section Sample

/-- A function that writes its input to one output, and this write to another one. -/
def chainDraft : Draft :=
  blank.requested [.declare "y" "double" .output, .declare "z" "double" .output,
    .declare "x" "double" .input, .read ⟨0, 2⟩, .write ⟨0, 0⟩ (.node ⟨0, 3⟩),
    .write ⟨0, 1⟩ (.node ⟨0, 4⟩)]

theorem exists_adjointRun_chain : ∃ run : chainDraft.AdjointRun 1 [],
    chainDraft.adjoint 1 [] = (.ok run.last.draft, run.last.draft.types) :=
  exists_adjointRun_of_isOk (by cbv)

/-- What flows into the first write stays there. -/
theorem pending_chain :
    ((chainDraft.sweepOf []).run (chainDraft.adjointStart 1)).2.accumulator.pending ⟨1, 7⟩ =
      [⟨1, 10⟩] := by cbv

/-- In the adjoint of a function that writes a write, what waits does so at a write. -/
theorem Reachable.adjoint_contributions_chain : ∃ primal result : Draft, primal.Reachable ∧
    primal.operators.PassesToOperands ∧ primal.adjoint 1 [] = (.ok result, result.types) ∧
    ∃ run : primal.AdjointRun 1 [], result = run.last.draft ∧
      (∃ log, Accumulator.empty.History log run.swept.accumulator) ∧
      ∀ target, run.swept.accumulator.pending target ≠ [] → run.copied.UsesWrite target := by
  obtain ⟨run, hadjoint⟩ := exists_adjointRun_chain
  have hreachable : chainDraft.Reachable := reachable_requested _
  have hpasses : chainDraft.operators.PassesToOperands :=
    (operators_requested _).symm ▸ Registry.standard_passesToOperands
  obtain ⟨found, hfound, hlog, -, hwaiting⟩ := hreachable.adjoint_contributions hpasses hadjoint
  exact ⟨chainDraft, _, hreachable, hpasses, hadjoint, found, hfound, hlog, hwaiting⟩

/-- The gradient of the second output flows into the first write, and stays there. -/
theorem pending_write_chain : ∃ (primal : Draft) (run : primal.AdjointRun 1 []),
    primal.Reachable ∧ primal.operators = .standard ∧
    primal.adjoint 1 [] = (.ok run.last.draft, run.last.draft.types) ∧
    run.swept.accumulator.pending ⟨1, 7⟩ = [⟨1, 10⟩] := by
  obtain ⟨run, hadjoint⟩ := exists_adjointRun_chain
  have hpending := pending_chain
  rw [run.run_sweepOf] at hpending
  exact ⟨chainDraft, run, reachable_requested _, operators_requested _, hadjoint, hpending⟩

end Sample

end Draft

end DiffGraph
