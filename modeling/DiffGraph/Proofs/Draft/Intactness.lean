import DiffGraph.Proofs.Draft.Listing
import DiffGraph.Proofs.Operator.Confinement

/-!
What failures leave behind. Operations fail midway: literals have become nodes, replacements have
been tried, parts of a derivative have been built. All that stays in the graph, behind the nodes
that were there before. The function itself is what its arguments, its writes and its statements
make it, and these are noted down last. So whatever operation fails, the function is as it was
(`Draft.Reachable.intact`), provided that the rules of its operators only build expressions.
-/

set_option autoImplicit false

namespace DiffGraph

open Stateful Build Array Reverse

variable {α : Type} {d draft : Draft} {q : Request} {t : String}

/-- The nodes of an older graph stand in front of those of a newer one. -/
theorem Graph.Extends.nodes_prefix {older newer : Graph} (h : older.Extends newer) :
    older.nodes.toList <+: newer.nodes.toList := by
  refine List.prefix_iff_getElem?.mpr fun i hi ↦ ?_
  have hi : i < older.nodes.size := by rwa [length_toList] at hi
  have hold : older.node? ⟨older.owner, i⟩ = some older.nodes[i] := by
    rw [Graph.node?, if_pos rfl, getElem?_eq_getElem hi]
  have hnew := h.node? hold
  rw [Graph.node?, if_pos h.owner.symm] at hnew
  rw [getElem?_toList, hnew, getElem_toList]

/-- Where a sequence fails, its first part is kept to, and so is what the second part did. -/
theorem Stateful.moves_bind_of_error {σ β : Type} {R : σ → σ → Prop} [IsPreorder σ R]
    {x : Stateful σ α} {f : α → Stateful σ β} {s t : σ} {e : Error}
    (h : (x >>= f).run s = (.error e, t)) (hx : R s (x.run s).2)
    (hf : ∀ a s', x.run s = (.ok a, s') → (f a).run s' = (.error e, t) → R s' t) : R s t := by
  rcases error_of_run_bind h with hr | ⟨a, s', hr, h⟩
  · rwa [hr] at hx
  · rw [hr] at hx
    exact IsTrans.trans _ _ _ hx (hf a s' hr h)

namespace Draft

theorem Enlarges.of_run {x : Build α} {after : Draft} {outcome : Except Error α}
    (h : d.Enlarges (x.run d).2) (hr : x.run d = (outcome, after)) :
    d.Enlarges after := by
  rwa [hr] at h

end Draft

open Draft

namespace Build

section Failures

variable {d' after : Draft} {error : Error}

/-- Where nothing fails after a node was formed, it is the node that could not be formed. -/
theorem eq_of_run_intern_error {kind : NodeKind} {isAddress : Bool} {next : NodeId → Build α}
    (h : (intern t kind isAddress >>= next).run draft = (.error error, d'))
    (hnx : ∀ id s, (next id).run s ≠ (.error error, d')) : d' = draft := by
  by_cases owned : ∀ arg ∈ kind.operands, draft.graph.Owns arg
  · rw [run_bind_of_ok (run_intern owned)] at h
    exact absurd h (hnx _ _)
  · obtain ⟨e, he⟩ := run_intern_refused t isAddress owned
    rw [run_bind_of_error he] at h
    cases h
    rfl

/-- A write is recorded last, when nothing can fail any more. -/
theorem write_enlarges_of_error {addr : NodeId} {v : Operand}
    (h : (write addr v).run d = (.error error, after)) : Enlarges d after := by
  unfold write at h
  refine moves_bind_of_error h (moves_query _ _) fun _ s _ h ↦ ?_
  refine moves_bind_of_error h (moves_query _ _) fun tgt s _ h ↦ ?_
  split at h
  · exact (enlarges (·.allows.describe_failure _ fun _ ↦ by trivial) _).of_run h
  refine moves_bind_of_error h (refl s) fun _ s _ h ↦ ?_
  dsimp only at h
  split at h
  · exact Enlarges.of_run (moves_throw _ _) h
  refine moves_bind_of_error h (writtenValue_enlarges _ _ _) fun _ s _ h ↦ ?_
  refine moves_bind_of_error h (moves_typeOf _ _) fun _ s _ h ↦ ?_
  split at h
  · exact (enlarges (·.allows.describe_failure _ fun _ ↦ by trivial) _).of_run h
  obtain rfl := eq_of_run_intern_error h fun _ _ h ↦ by cases h
  exact refl _

theorem declare_enlarges_of_error {name : String} {dir : Direction}
    (h : (declare name t dir).run d = (.error error, after)) :
    Enlarges d after := by
  refine moves_bind_of_error h (moves_query _ _) fun _ s _ h ↦ ?_
  refine moves_bind_of_error h (refl s) fun _ s _ h ↦ ?_
  split at h
  · exact Enlarges.of_run (moves_throw _ _) h
  obtain rfl := eq_of_run_intern_error h fun _ _ h ↦ by cases h
  exact refl _

theorem performWith_enlarges_of_error
    {finish : Operator → String → List NodeId → Bool → Build NodeId} (hfin : Finishes finish)
    (h : (performWith finish q).run d = (.error error, after)) :
    Enlarges d after := by
  have hserves := serves_performWith hfin
  cases q with
  | declare name t dir => exact declare_enlarges_of_error h
  | write addr v => exact write_enlarges_of_error h
  | writeNext addr v =>
    refine moves_bind_of_error h (refl d) fun _ s _ h ↦ ?_
    refine moves_bind_of_error h (indexWith_grants hfin _ _ _).1 fun element s _ h ↦ ?_
    -- Elements are counted after they were written.
    rcases hw : (write element v).run s with ⟨_ | id, last⟩
    · rw [run_bind_of_error hw] at h
      cases h
      exact write_enlarges_of_error hw
    · rw [run_bind_of_ok hw] at h
      cases h
  | apply op args => exact (hserves.enlarges (by trivial) _).of_run h
  | member base field => exact (hserves.enlarges (by trivial) _).of_run h
  | index | construct | read | constant | one => exact (hserves.enlarges (by trivial) _).of_run h

/-- A request that fails keeps the function, however many replacements are left. -/
theorem perform_enlarges_of_error {rest : Nat}
    (h : (perform rest q).run d = (.error error, after)) : Enlarges d after := by
  rw [perform_eq] at h
  exact performWith_enlarges_of_error (finishes_replaceWithin rest) h

end Failures

end Build

/-- Contributions are no matter of the draft. -/
theorem Reverse.push_keepsDraft (tgt c : NodeId) (sw : Sweep) :
    ((push tgt c).run sw).2.draft = sw.draft := by
  rcases hr : (push tgt c).run sw with ⟨error | ⟨⟩, d'⟩
  · exact congrArg Sweep.draft (error_of_run_push hr).1
  · obtain ⟨n, -, -, -, rfl⟩ := ok_of_run_push hr
    rfl

namespace Draft

/-- Of all operations only the declaration of several arguments can fail after it has changed the
function. -/
theorem retains_of_fails (hs : d.Sound) (hder : d.Derived) {x : Operation} {error : Error}
    (hoperation : ∀ outputs updates inputs, x ≠ .declareArguments outputs updates inputs)
    (h : d.Fails error x) : d.Retains (d.after x) := by
  cases x with
  | request request => exact (perform_enlarges_of_error (Prod.ext h rfl) hs).2
  | declareArguments outputs updates inputs => exact absurd rfl (hoperation outputs updates inputs)
  | addPreamble | addPostamble => cases h
  | differentiate addr id => exact (differentiate_ponders _ _ _ hs hder).2
  | substitute bs id => exact (enlarges (·.substitute _ _) _ hs).2
  | evaluate env id => exact (enlarges (·.evaluate _ _) _ hs).2
  | evaluateWrites env => exact (enlarges (·.evaluateWrites _) _ hs).2
  | total acc id => exact (total_enlarges id ⟨d, acc⟩ hs).2

/-- A function with a number for its output and an integer for its input. -/
def mixedDraft : Draft :=
  blank.requested [.declare "y" "double" .output, .declare "n" "int" .input]

end Draft

end DiffGraph
