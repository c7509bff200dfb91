import DiffGraph.Draft.Adjoint
import DiffGraph.Proofs.Draft.Runs
import DiffGraph.Proofs.Graph.Interning
import DiffGraph.Proofs.Operator.Plans

/-!
Runs of the operations on gradients. What the accumulator holds after an amount was added or a total
was taken is said by `Accumulator.add` and `Accumulator.close`; runs of the operations come down to
these two and to operations on the draft.
-/

set_option autoImplicit false

namespace DiffGraph

open Stateful Build List Std.HashMap

variable {d : Draft} {id : NodeId} {n : Node} {error : Error}

namespace Accumulator

variable (acc : Accumulator)

/-- One more contribution to a node. -/
def add (tgt c : NodeId) : Accumulator :=
  { acc with
    contributions :=
      acc.contributions.insert tgt (acc.pending tgt ++ [c]) }

/-- The contributions to a node are taken out. -/
def take (id : NodeId) : Accumulator :=
  { acc with contributions := acc.contributions.erase id }

/-- The total of a node takes the place of its contributions. -/
def close (id total : NodeId) : Accumulator where
  contributions := acc.contributions.erase id
  totals := acc.totals.insert id total

theorem pending_add (tgt c id : NodeId) : (acc.add tgt c).pending id =
      if tgt = id then acc.pending id ++ [c] else acc.pending id := by
  by_cases h : tgt = id <;> simp [add, pending, getD_insert, h]

theorem totals_add (tgt c : NodeId) : (acc.add tgt c).totals = acc.totals := rfl

theorem pending_take (id other : NodeId) : (acc.take id).pending other =
    if id = other then [] else acc.pending other := by
  by_cases h : id = other <;> simp [take, pending, getD_erase, h]

theorem pending_close (id total other : NodeId) : (acc.close id total).pending other =
    if id = other then [] else acc.pending other :=
  acc.pending_take id other

theorem totals_close (id total other : NodeId) : (acc.close id total).totals[other]? =
      if id = other then some total else acc.totals[other]? := by
  by_cases h : id = other <;> simp [close, Std.HashMap.getElem?_insert, h]

theorem pending_empty (id : NodeId) : Accumulator.empty.pending id = [] := by
  simp [pending, empty]

theorem totals_empty (id : NodeId) : Accumulator.empty.totals[id]? = none := by
  simp [empty]

theorem isFinalized_eq (id : NodeId) : acc.isFinalized id = (acc.totals[id]?).isSome := by
  rw [isFinalized, isSome_getElem?_eq_contains]

/-- Amounts and totals stand in a relation to the nodes they are for. -/
structure Relates (R : NodeId → NodeId → Prop) : Prop where
  pending : ∀ ⦃id c : NodeId⦄, c ∈ acc.pending id → R id c
  totals : ∀ ⦃id total : NodeId⦄, acc.totals[id]? = some total → R id total

variable {acc} {R : NodeId → NodeId → Prop} {tgt c amount total : NodeId}

theorem relates_empty : Accumulator.empty.Relates R where
  pending _ _ h := absurd (pending_empty _ ▸ h) not_mem_nil
  totals _ _ h := by
    rw [totals_empty] at h
    cases h

theorem Relates.imp (h : acc.Relates R) {R' : NodeId → NodeId → Prop}
    (himp : ∀ {id c}, R id c → R' id c) : acc.Relates R' :=
  ⟨fun _ _ ham ↦ himp (h.pending ham), fun _ _ htot ↦ himp (h.totals htot)⟩

theorem Relates.add (h : acc.Relates R) (ham : R tgt c) : (acc.add tgt c).Relates R where
  pending id other ho := by
    rw [pending_add] at ho
    split at ho
    next heq =>
      rcases mem_append.mp ho with hold | hnew
      · exact h.pending hold
      · rwa [← heq, mem_singleton.mp hnew]
    next => exact h.pending ho
  totals := h.totals

theorem Relates.take (h : acc.Relates R) (id : NodeId) : (acc.take id).Relates R where
  pending other amount ham := by
    rw [pending_take] at ham
    split at ham
    next => exact absurd ham not_mem_nil
    next => exact h.pending ham
  totals := h.totals

theorem Relates.close (h : acc.Relates R) (htot : R id total) : (acc.close id total).Relates R where
  pending := (h.take id).pending
  totals other found hf := by
    rw [totals_close] at hf
    split at hf
    next heq => rwa [← heq, ← Option.some.inj hf]
    next => exact h.totals hf

end Accumulator

namespace Reverse

variable {sw d' : Sweep} {tgt c amount : NodeId}

theorem run_onDraft {α : Type} {x : Build α} {outcome : Except Error α}
    (h : x.run sw.draft = (outcome, d)) :
    (onDraft x).run sw = (outcome, ⟨d, sw.accumulator⟩) := by
  show ((x.run sw.draft).1, (⟨(x.run sw.draft).2, _⟩ : Sweep)) = _
  rw [h]

theorem ok_of_run_onDraft {α : Type} {x : Build α} {a : α} (h : (onDraft x).run sw = (.ok a, d')) :
    ∃ d, x.run sw.draft = (.ok a, d) ∧ d' = ⟨d, sw.accumulator⟩ := by
  change ((x.run sw.draft).1, (⟨(x.run sw.draft).2, _⟩ : Sweep)) = _ at h
  obtain ⟨houtcome, haf⟩ := Prod.mk.inj h
  exact ⟨_, Prod.ext houtcome rfl, haf.symm⟩

/-- A node that has no total yet takes an amount, unless it is a constant. -/
theorem run_push (htg : sw.draft.graph.node? tgt = some n)
    (ham : sw.draft.graph.Owns c) (hopen : sw.accumulator.totals[tgt]? = none) :
    (push tgt c).run sw = (.ok ⟨⟩, ⟨sw.draft,
      if n.constant?.isSome then sw.accumulator else sw.accumulator.add tgt c⟩) := by
  have how := Graph.owns_of_node? htg
  rw [push, run_bind_of_ok (run_onDraft (run_checkOwned_of_owns how)),
    run_bind_of_ok (run_onDraft (run_checkOwned_of_owns ham)),
    run_get_bind]
  dsimp only
  rw [if_neg (by rw [Accumulator.isFinalized_eq, hopen]; exact Bool.false_ne_true),
    run_bind_of_ok (run_onDraft (run_node_of_some htg))]
  split <;> rfl

/-- Nothing is added to a total. -/
theorem run_push_finalized (htg : sw.draft.graph.Owns tgt)
    (ham : sw.draft.graph.Owns c) (hcl : sw.accumulator.totals[tgt]? ≠ none) :
    (push tgt c).run sw = (.error (.gradientFinalized (sw.draft.describe tgt)), sw) := by
  rw [push, run_bind_of_ok (run_onDraft (run_checkOwned_of_owns htg)),
    run_bind_of_ok (run_onDraft (run_checkOwned_of_owns ham)), run_get_bind]
  dsimp only
  rw [if_pos (by rw [Accumulator.isFinalized_eq]; exact Option.isSome_iff_ne_none.mpr hcl)]
  rfl

theorem ok_of_run_push (h : (push tgt c).run sw = (.ok ⟨⟩, d')) :
    ∃ n, sw.draft.graph.node? tgt = some n ∧ sw.draft.graph.Owns c ∧
      sw.accumulator.totals[tgt]? = none ∧ d' = ⟨sw.draft,
        if n.constant?.isSome then sw.accumulator
        else sw.accumulator.add tgt c⟩ := by
  obtain ⟨⟨⟩, s, hr, hrs⟩ := ok_of_run_bind h
  obtain ⟨d, hcheck, rfl⟩ := ok_of_run_onDraft hr
  obtain ⟨htg, rfl⟩ := ok_of_run_checkOwned hcheck
  obtain ⟨⟨⟩, s, hr, -⟩ := ok_of_run_bind hrs
  obtain ⟨d, hcheck, rfl⟩ := ok_of_run_onDraft hr
  obtain ⟨ham, rfl⟩ := ok_of_run_checkOwned hcheck
  obtain ⟨n, hn⟩ := Graph.owns_iff_node?.mp htg
  have hopen : sw.accumulator.totals[tgt]? = none := by
    by_contra hcl
    cases (run_push_finalized htg ham hcl).symm.trans h
  exact ⟨n, hn, ham, hopen, congrArg Prod.snd (h.symm.trans (run_push hn ham hopen))⟩

/-- A contribution is refused by questions, which leave everything as it is. -/
theorem error_of_run_push (h : (push tgt c).run sw = (.error error, d')) : d' = sw ∧ (error.Basic ∨
      (∃ text, error = .gradientFinalized text) ∧ sw.accumulator.totals[tgt]? ≠ none) := by
  have hfor {id : NodeId} (how : ¬sw.draft.graph.Owns id) :
      (onDraft (Build.checkOwned id)).run sw = (.error (.foreignNode id.index), sw) :=
    run_onDraft (by rw [Build.checkOwned, run_query, if_neg how])
  by_cases htg : sw.draft.graph.Owns tgt
  case neg =>
    cases (run_bind_of_error (hfor htg)).symm.trans h
    exact ⟨rfl, .inl trivial⟩
  by_cases ham : sw.draft.graph.Owns c
  case neg =>
    rw [push, run_bind_of_ok (run_onDraft (run_checkOwned_of_owns htg))] at h
    cases (run_bind_of_error (hfor ham)).symm.trans h
    exact ⟨rfl, .inl trivial⟩
  obtain ⟨n, hn⟩ := Graph.owns_iff_node?.mp htg
  by_cases hopen : sw.accumulator.totals[tgt]? = none
  · cases (run_push hn ham hopen).symm.trans h
  · cases (run_push_finalized htg ham hopen).symm.trans h
    exact ⟨rfl, .inr ⟨⟨_, rfl⟩, hopen⟩⟩

theorem run_takePending : (takePending id).run sw =
      (.ok (sw.accumulator.pending id), ⟨sw.draft, sw.accumulator.take id⟩) := rfl

/-- A total that is known stays. -/
theorem run_total_known {k : NodeId} (h : sw.accumulator.totals[id]? = some k) :
    (total id).run sw = (.ok k, sw) := by
  rw [total, run_get_bind, h]
  rfl

/-- The contributions of a node from the first to the last; without any, the zero of its type. -/
def sumUp (id : NodeId) : List NodeId → Build NodeId
  | [] => do Build.zero (← Build.typeOf id)
  | first :: rest => rest.foldlM Build.sum first

/-- A total that is not known yet is summed up and noted down. -/
theorem run_total_open (hopen : sw.accumulator.totals[id]? = none) : (total id).run sw = (do
      let m ← onDraft (sumUp id (sw.accumulator.pending id))
      modify fun ⟨d, acc⟩ ↦ ⟨d, { acc with totals := acc.totals.insert id m }⟩
      return m : Reverse NodeId).run ⟨sw.draft, sw.accumulator.take id⟩ := by
  rw [total, run_get_bind, hopen]
  dsimp only
  rw [run_bind_of_ok run_takePending]
  cases sw.accumulator.pending id <;> rfl

theorem run_total (hopen : sw.accumulator.totals[id]? = none)
    (h : (sumUp id (sw.accumulator.pending id)).run sw.draft = (.ok c, d)) :
    (total id).run sw = (.ok c, ⟨d, sw.accumulator.close id c⟩) := by
  have hsum : (onDraft (sumUp id (sw.accumulator.pending id))).run
      ⟨sw.draft, sw.accumulator.take id⟩ = _ := run_onDraft h
  rw [run_total_open hopen, run_bind_of_ok hsum]
  rfl

/-- A total is known, or it becomes known as the sum of the contributions. -/
theorem ok_of_run_total (h : (total id).run sw = (.ok c, d')) :
    sw.accumulator.totals[id]? = some c ∧ d' = sw ∨ sw.accumulator.totals[id]? = none ∧ ∃ d,
        (sumUp id (sw.accumulator.pending id)).run sw.draft = (.ok c, d) ∧
          d' = ⟨d, sw.accumulator.close id c⟩ := by
  cases hkn : sw.accumulator.totals[id]? with
  | some k =>
    cases (run_total_known hkn).symm.trans h
    exact .inl ⟨rfl, rfl⟩
  | none =>
    obtain ⟨m, s, hf, -⟩ := ok_of_run_bind ((run_total_open hkn).symm.trans h)
    obtain ⟨d, hsum, -⟩ := ok_of_run_onDraft hf
    cases (run_total hkn hsum).symm.trans h
    exact .inr ⟨rfl, d, hsum, rfl⟩

/-- Where the sum fails, the contributions are gone. -/
theorem run_total_of_error (hopen : sw.accumulator.totals[id]? = none)
    (h : (sumUp id (sw.accumulator.pending id)).run sw.draft = (.error error, d)) :
    (total id).run sw = (.error error, ⟨d, sw.accumulator.take id⟩) := by
  have hsum : (onDraft (sumUp id (sw.accumulator.pending id))).run
      ⟨sw.draft, sw.accumulator.take id⟩ = _ := run_onDraft h
  rw [run_total_open hopen, run_bind_of_error hsum]

theorem error_of_run_total (h : (total id).run sw = (.error error, d')) :
    ∃ d, (sumUp id (sw.accumulator.pending id)).run sw.draft = (.error error, d) ∧
      d' = ⟨d, sw.accumulator.take id⟩ := by
  cases hkn : sw.accumulator.totals[id]? with
  | some k => cases (run_total_known hkn).symm.trans h
  | none =>
    rcases hsum : (sumUp id (sw.accumulator.pending id)).run sw.draft with ⟨_ | found, d⟩
    · cases (run_total_of_error hkn hsum).symm.trans h
      exact ⟨d, rfl, rfl⟩
    · cases (run_total hkn hsum).symm.trans h

end Reverse

end DiffGraph
