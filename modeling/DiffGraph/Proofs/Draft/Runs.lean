import Mathlib.Order.Defs.Unbundled
import DiffGraph.Draft.Accumulator

/-!
Runs of operations. An operation takes a state to an outcome and a state, also when it fails. Runs
are taken apart at their steps: a sequence that yields a result has run its first part to a result,
and a relation that every step keeps is kept by sequences, loops and walks over lists.
-/

set_option autoImplicit false

namespace DiffGraph

variable {d draft d' : Draft} {id : NodeId} {α β : Type} {m : Node}

/-- An operation that may fail and keeps what it did to the state before it failed. -/
abbrev Stateful (σ : Type) := ExceptT Error (StateM σ)

namespace Stateful

section Equations

variable {σ : Type}

theorem run_bind (x : Stateful σ α) (f : α → Stateful σ β) (s : σ) :
    (x >>= f).run s = match x.run s with
      | (.ok a, s') => (f a).run s'
      | (.error e, s') => (.error e, s') := by
  show ExceptT.bindCont f (x.run s).1 (x.run s).2 = _
  rcases x.run s with ⟨_ | _, _⟩ <;> rfl

@[simp] theorem run_pure (a : α) (s : σ) : (pure a : Stateful σ α).run s = (.ok a, s) := rfl

@[simp] theorem run_throw (e : Error) (s : σ) :
    (throw e : Stateful σ α).run s = (.error e, s) := rfl

@[simp] theorem run_get (s : σ) : (get : Stateful σ σ).run s = (.ok s, s) := rfl

@[simp] theorem run_modify (f : σ → σ) (s : σ) :
    (modify f : Stateful σ PUnit).run s = (.ok ⟨⟩, f s) := rfl

/-- A sequence goes on from the result of its first part. -/
theorem run_bind_of_ok {x : Stateful σ α} {f : α → Stateful σ β} {s s' : σ} {a : α}
    (h : x.run s = (.ok a, s')) : (x >>= f).run s = (f a).run s' := by
  rw [run_bind, h]

theorem run_get_bind {f : σ → Stateful σ β} {s : σ} : (get >>= f).run s = (f s).run s :=
  run_bind_of_ok (run_get s)

theorem run_bind_of_error {x : Stateful σ α} {f : α → Stateful σ β} {s s' : σ} {e : Error}
    (h : x.run s = (.error e, s')) : (x >>= f).run s = (.error e, s') := by
  rw [run_bind, h]

theorem run_bind_congr {x y : Stateful σ α} {f : α → Stateful σ β} {s : σ}
    (h : x.run s = y.run s) : (x >>= f).run s = (y >>= f).run s := by
  rw [run_bind, h, run_bind]

/-- A sequence that yields a result has run its first part to a result. -/
theorem ok_of_run_bind {x : Stateful σ α} {f : α → Stateful σ β} {s t : σ} {b : β}
    (h : (x >>= f).run s = (.ok b, t)) :
    ∃ a s', x.run s = (.ok a, s') ∧ (f a).run s' = (.ok b, t) := by
  rcases hx : x.run s with ⟨_ | a, s'⟩
  · rw [run_bind_of_error hx] at h
    cases h
  · rw [run_bind_of_ok hx] at h
    exact ⟨a, s', rfl, h⟩

theorem error_of_run_bind {x : Stateful σ α} {f : α → Stateful σ β} {s t : σ} {e : Error}
    (h : (x >>= f).run s = (.error e, t)) :
    x.run s = (.error e, t) ∨ ∃ a s', x.run s = (.ok a, s') ∧ (f a).run s' = (.error e, t) := by
  rcases hx : x.run s with ⟨_ | a, s'⟩
  · rw [run_bind_of_error hx] at h
    cases h
    exact .inl rfl
  · rw [run_bind_of_ok hx] at h
    exact .inr ⟨a, s', rfl, h⟩

theorem ok_of_run_pure {a b : α} {s t : σ} (h : (pure a : Stateful σ α).run s = (.ok b, t)) :
    b = a ∧ t = s := by
  cases h
  exact ⟨rfl, rfl⟩

theorem ok_of_run_get {s t : σ} {a : σ} (h : (get : Stateful σ σ).run s = (.ok a, t)) :
    a = s ∧ t = s := by
  cases h
  exact ⟨rfl, rfl⟩

theorem ok_of_run_modify {f : σ → σ} {s t : σ} {a : PUnit}
    (h : (modify f : Stateful σ PUnit).run s = (.ok a, t)) : t = f s := by
  cases h
  rfl

theorem ok_of_run_mapM_cons {f : α → Stateful σ β} {a : α} {l : List α} {s t : σ} {bs : List β}
    (h : ((a :: l).mapM f).run s = (.ok bs, t)) :
    ∃ b rest s', (f a).run s = (.ok b, s') ∧ (l.mapM f).run s' = (.ok rest, t) ∧
      bs = b :: rest := by
  rw [List.mapM_cons] at h
  obtain ⟨b, s', hb, h⟩ := ok_of_run_bind h
  obtain ⟨rest, s'', hrs, h⟩ := ok_of_run_bind h
  obtain ⟨rfl, rfl⟩ := ok_of_run_pure h
  exact ⟨b, rest, s', hb, hrs, rfl⟩

theorem length_of_run_mapM {f : α → Stateful σ β} {l : List α} {s t : σ} {bs : List β}
    (h : (l.mapM f).run s = (.ok bs, t)) : bs.length = l.length := by
  induction l generalizing bs s with
  | nil => exact (ok_of_run_pure h).1 ▸ rfl
  | cons a l ih =>
    obtain ⟨b, rest, s', -, hrs, rfl⟩ := ok_of_run_mapM_cons h
    exact congrArg Nat.succ (ih hrs)

theorem ok_of_run_foldlM_cons {f : β → α → Stateful σ β} {a : α} {l : List α} {b c : β} {s t : σ}
    (h : ((a :: l).foldlM f b).run s = (.ok c, t)) :
    ∃ b' s', (f b a).run s = (.ok b', s') ∧ (l.foldlM f b').run s' = (.ok c, t) := by
  rw [List.foldlM_cons] at h
  exact ok_of_run_bind h

theorem ok_of_run_forM_cons {f : α → Stateful σ PUnit} {a : α} {l : List α} {s t : σ}
    (h : ((a :: l).forM f).run s = (.ok ⟨⟩, t)) :
    ∃ s', (f a).run s = (.ok ⟨⟩, s') ∧ (l.forM f).run s' = (.ok ⟨⟩, t) := by
  change (f a >>= fun _ ↦ l.forM f).run s = (.ok ⟨⟩, t) at h
  obtain ⟨⟨⟩, s', hstep, h⟩ := ok_of_run_bind h
  exact ⟨s', hstep, h⟩

theorem run_forM_cons {f : α → Stateful σ PUnit} {a : α} {l : List α} {s t : σ}
    (h : (f a).run s = (.ok ⟨⟩, t)) : ((a :: l).forM f).run s = (l.forM f).run t :=
  run_bind_of_ok h

theorem array_forM_eq (xs : Array α) (f : α → Stateful σ PUnit) : xs.forM f = xs.toList.forM f := by
  rw [Array.forM_eq_forM]
  exact List.forM_toArray xs.toList f

end Equations

section Relations

variable {σ : Type} {R : σ → σ → Prop} [IsPreorder σ R]

theorem moves_pure (a : α) (s : σ) : R s ((pure a : Stateful σ α).run s).2 := refl s

theorem moves_throw (e : Error) (s : σ) : R s ((throw e : Stateful σ α).run s).2 := refl s

/-- The second part runs only from a result of the first part. -/
theorem moves_bind {x : Stateful σ α} {f : α → Stateful σ β} {s : σ} (hx : R s (x.run s).2)
    (hf : ∀ a s', x.run s = (.ok a, s') → R s' ((f a).run s').2) :
    R s ((x >>= f).run s).2 := by
  rcases h : x.run s with ⟨e | a, s'⟩
  · rw [run_bind_of_error h]
    rwa [h] at hx
  · rw [run_bind_of_ok h]
    rw [h] at hx
    exact IsTrans.trans _ _ _ hx (hf a s' h)

theorem moves_mapM {f : α → Stateful σ β} {l : List α}
    (hf : ∀ a ∈ l, ∀ s, R s ((f a).run s).2) (s : σ) : R s ((l.mapM f).run s).2 := by
  induction l generalizing s with
  | nil =>
    rw [List.mapM_nil]
    exact moves_pure [] s
  | cons a l ih =>
    rw [List.mapM_cons]
    refine moves_bind (hf a List.mem_cons_self s) fun b s' _ ↦ ?_
    refine moves_bind (ih (fun a' ha' ↦ hf a' (List.mem_cons_of_mem _ ha')) s') fun rest s'' _ ↦ ?_
    exact moves_pure _ s''

theorem moves_foldlM {f : β → α → Stateful σ β} {l : List α}
    (hf : ∀ b, ∀ a ∈ l, ∀ s, R s ((f b a).run s).2) (b : β) (s : σ) :
    R s ((l.foldlM f b).run s).2 := by
  induction l generalizing b s with
  | nil => exact moves_pure b s
  | cons a l ih =>
    rw [List.foldlM_cons]
    refine moves_bind (hf b a List.mem_cons_self s) fun b' s' _ ↦ ?_
    exact ih (fun b a' ha' ↦ hf b a' (List.mem_cons_of_mem _ ha')) b' s'

theorem moves_forM {f : α → Stateful σ PUnit} {l : List α}
    (hf : ∀ a ∈ l, ∀ s, R s ((f a).run s).2) (s : σ) : R s ((l.forM f).run s).2 := by
  induction l generalizing s with
  | nil => exact moves_pure PUnit.unit s
  | cons a l ih =>
    change R s ((f a >>= fun _ ↦ l.forM f).run s).2
    refine moves_bind (hf a List.mem_cons_self s) fun _ s' _ ↦ ?_
    exact ih (fun a' ha' ↦ hf a' (List.mem_cons_of_mem _ ha')) s'

end Relations

end Stateful

namespace Build

open List Stateful

variable {name : String} {t : TypeDefinition}

@[simp] theorem run_query (question : Draft → Except Error α) (d : Draft) :
    (query question).run d = (question d, d) := by
  rw [query, run_get_bind]
  cases question d <;> rfl

@[simp] theorem run_observe (x : Build α) (d : Draft) :
    (observe x).run d = (.ok (x.run d).1, (x.run d).2) := rfl

/-- A question leaves the draft as it is. -/
theorem ok_of_run_query {question : Draft → Except Error α} {a : α}
    (h : (query question).run draft = (.ok a, d')) : question draft = .ok a ∧ d' = draft := by
  rw [run_query] at h
  obtain ⟨h, hd⟩ := Prod.mk.inj h
  exact ⟨h, hd.symm⟩

theorem moves_query {R : Draft → Draft → Prop} [IsPreorder Draft R]
    (question : Draft → Except Error α) (d : Draft) :
    R d ((query question).run d).2 := by
  rw [run_query]
  exact refl d

theorem moves_typeOf {R : Draft → Draft → Prop} [IsPreorder Draft R] (id : NodeId)
    (d : Draft) : R d ((typeOf id).run d).2 :=
  moves_bind (moves_query _ _) fun _ _ _ ↦ moves_pure _ _

/-- A node that was asked for is there, and the draft is as it was. -/
theorem ok_of_run_node (h : (node id).run draft = (.ok m, d')) :
    draft.graph.node? id = some m ∧ d' = draft := by
  obtain ⟨h, rfl⟩ := ok_of_run_query h
  refine ⟨?_, rfl⟩
  unfold Draft.node at h
  cases hn : d'.graph.node? id with
  | none =>
    rw [hn] at h
    cases h
  | some node =>
    rw [hn] at h
    cases h
    rfl

theorem run_node_of_some (h : d.graph.node? id = some m) : (node id).run d = (.ok m, d) := by
  rw [node, run_query, Draft.node, h]

theorem ok_of_run_typeOf {t : String} (h : (typeOf id).run draft = (.ok t, d')) :
    (∃ m, draft.graph.node? id = some m ∧ m.type = t) ∧ d' = draft := by
  unfold typeOf at h
  obtain ⟨m, s, hf, hret⟩ := ok_of_run_bind h
  obtain ⟨hn, rfl⟩ := ok_of_run_node hf
  obtain ⟨rfl, rfl⟩ := ok_of_run_pure hret
  exact ⟨⟨m, hn, rfl⟩, rfl⟩

theorem run_typeOf_of_some (h : d.graph.node? id = some m) :
    (typeOf id).run d = (.ok m.type, d) := by
  rw [typeOf, run_bind_of_ok (run_node_of_some h)]
  rfl

theorem ok_of_run_lookupType (h : (lookupType name).run draft = (.ok t, d')) :
    draft.types.get? name = some t ∧ d' = draft := by
  obtain ⟨h, rfl⟩ := ok_of_run_query h
  refine ⟨?_, rfl⟩
  unfold Draft.lookupType at h
  cases hg : d'.types.get? name with
  | none =>
    rw [hg] at h
    cases h
  | some t =>
    rw [hg] at h
    cases h
    rfl

theorem run_lookupType_of_some
    (h : d.types.get? name = some t) : (lookupType name).run d = (.ok t, d) := by
  rw [lookupType, run_query, Draft.lookupType, h]

theorem ok_of_run_checkOwned (h : (checkOwned id).run draft = (.ok ⟨⟩, d')) :
    draft.graph.Owns id ∧ d' = draft := by
  obtain ⟨h, rfl⟩ := ok_of_run_query h
  refine ⟨?_, rfl⟩
  by_cases how : d'.graph.Owns id
  · exact how
  · rw [if_neg how] at h
    cases h

theorem ok_of_run_forM_checkOwned {ids : List NodeId}
    (h : (ids.forM checkOwned).run draft = (.ok ⟨⟩, d')) :
    (∀ id ∈ ids, draft.graph.Owns id) ∧ d' = draft := by
  induction ids generalizing draft with
  | nil =>
    obtain ⟨-, rfl⟩ := ok_of_run_pure h
    exact ⟨forall_mem_nil _, rfl⟩
  | cons id ids ih =>
    obtain ⟨s, hchecked, hrs⟩ := ok_of_run_forM_cons h
    obtain ⟨how, rfl⟩ := ok_of_run_checkOwned hchecked
    obtain ⟨hos, rfl⟩ := ih hrs
    exact ⟨forall_mem_cons.mpr ⟨how, hos⟩, rfl⟩

theorem run_checkOwned_of_owns (h : d.graph.Owns id) : (checkOwned id).run d = (.ok ⟨⟩, d) := by
  rw [checkOwned, run_query, if_pos h]

end Build

end DiffGraph
