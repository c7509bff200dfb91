import DiffGraph.Proofs.Draft.Runs
import DiffGraph.Proofs.Operator.Plans

/-!
What operations keep. An operation keeps a condition on states if it holds after the operation
whenever it held before (`Stateful.Keeps`). The state that a failure leaves behind is described apart,
together with the error. Sequences, loops and walks keep what their parts keep, and questions change
nothing.
-/

set_option autoImplicit false

namespace DiffGraph

variable {α β : Type}

namespace Stateful

variable {σ : Type}

/-- Where the condition holds before the operation, it holds after it, unless the operation fails and
leaves a state that is described together with the error. -/
def Keeps (cond : σ → Prop) (failing : Error → σ → Prop) (x : Stateful σ α) : Prop :=
  ∀ ⦃s : σ⦄, cond s → (∀ ⦃a s'⦄, x.run s = (.ok a, s') → cond s') ∧
    ∀ ⦃e s'⦄, x.run s = (.error e, s') → failing e s'

/-- The same from one state on. -/
abbrev KeepsAt (cond : σ → Prop) (failing : Error → σ → Prop) (x : Stateful σ α) (s : σ) :
    Prop :=
  (∀ ⦃a s'⦄, x.run s = (.ok a, s') → cond s') ∧
    ∀ ⦃e s'⦄, x.run s = (.error e, s') → failing e s'

variable {cond : σ → Prop} {failing : Error → σ → Prop}

theorem keeps_pure (a : α) : Keeps cond failing (pure a : Stateful σ α) := by
  refine fun s h ↦ ⟨fun b s' hr ↦ ?_, fun e s' hr ↦ by cases hr⟩
  obtain ⟨-, rfl⟩ := ok_of_run_pure hr
  exact h

theorem keeps_throw {e : Error} (he : ∀ ⦃s⦄, cond s → failing e s) :
    Keeps cond failing (throw e : Stateful σ α) := by
  intro s h
  constructor
  · intro b s' hr
    cases hr
  · intro e' s' hr
    cases hr
    exact he h

theorem keeps_modify {f : σ → σ} (hf : ∀ ⦃s⦄, cond s → cond (f s)) :
    Keeps cond failing (modify f : Stateful σ PUnit) :=
  fun _ h ↦ ⟨fun _ _ hr ↦ ok_of_run_modify hr ▸ hf h, fun _ _ hr ↦ by cases hr⟩

/-- The second part runs only where the first part ends. -/
theorem KeepsAt.bind {x : Stateful σ α} {f : α → Stateful σ β} {s : σ}
    (hx : KeepsAt cond failing x s)
    (hf : ∀ a s', x.run s = (.ok a, s') → cond s' → KeepsAt cond failing (f a) s') :
    KeepsAt cond failing (x >>= f) s := by
  rcases hr : x.run s with ⟨e | a, s'⟩
  · unfold KeepsAt
    rw [run_bind_of_error hr]
    constructor
    · intro b t hfl
      cases hfl
    · intro e' t hfl
      cases hfl
      exact hx.2 hr
  · unfold KeepsAt
    rw [run_bind_of_ok hr]
    exact hf a s' hr (hx.1 hr)

theorem keepsAt_get {f : σ → Stateful σ α} {s : σ} (h : KeepsAt cond failing (f s) s) :
    KeepsAt cond failing (get >>= f) s := h

theorem Keeps.bind_of_ok {x : Stateful σ α} {f : α → Stateful σ β} (hx : Keeps cond failing x)
    (hf : ∀ a s s', cond s → x.run s = (.ok a, s') → Keeps cond failing (f a)) :
    Keeps cond failing (x >>= f) :=
  fun s h ↦ KeepsAt.bind (hx h) fun a s' hr h' ↦ hf a s s' h hr h'

theorem Keeps.bind {x : Stateful σ α} {f : α → Stateful σ β} (hx : Keeps cond failing x)
    (hf : ∀ a, Keeps cond failing (f a)) : Keeps cond failing (x >>= f) :=
  hx.bind_of_ok fun a _ _ _ _ ↦ hf a

/-- What comes after a failure is not run. -/
theorem keeps_throw_bind {e : Error} (he : ∀ ⦃s⦄, cond s → failing e s)
    (f : α → Stateful σ β) : Keeps cond failing (throw e >>= f) :=
  (keeps_throw he).bind_of_ok fun _ _ _ _ hr ↦ by cases hr

/-- An operation that begins with a look at the state. -/
theorem keeps_get {f : σ → Stateful σ α} (hf : ∀ s, cond s → Keeps cond failing (f s)) :
    Keeps cond failing (get >>= f) :=
  fun s h ↦ hf s h h

theorem Keeps.congr {x y : Stateful σ α} (hx : Keeps cond failing x)
    (h : ∀ s, y.run s = x.run s) : Keeps cond failing y := by
  intro s hs
  rw [h]
  exact hx hs

theorem Keeps.mapM {f : α → Stateful σ β} {l : List α} (hf : ∀ a, Keeps cond failing (f a)) :
    Keeps cond failing (l.mapM f) := by
  induction l with
  | nil => exact keeps_pure []
  | cons a l ih =>
    rw [List.mapM_cons]
    exact (hf a).bind fun _ ↦ ih.bind fun _ ↦ keeps_pure _

theorem Keeps.foldlM {f : β → α → Stateful σ β} {l : List α}
    (hf : ∀ b, ∀ a ∈ l, Keeps cond failing (f b a)) (b : β) :
    Keeps cond failing (l.foldlM f b) := by
  induction l generalizing b with
  | nil => exact keeps_pure b
  | cons a l ih =>
    rw [List.foldlM_cons]
    exact (hf b a List.mem_cons_self).bind (ih fun b a' ha' ↦ hf b a' (List.mem_cons_of_mem _ ha'))

theorem Keeps.forM {f : α → Stateful σ PUnit} {l : List α}
    (hf : ∀ a ∈ l, Keeps cond failing (f a)) : Keeps cond failing (l.forM f) := by
  induction l with
  | nil => exact keeps_pure _
  | cons a l ih =>
    obtain ⟨hfst, hos⟩ := List.forall_mem_cons.mp hf
    exact hfst.bind fun _ ↦ ih hos

theorem Keeps.array_foldlM {f : β → α → Stateful σ β} {xs : Array α}
    (hf : ∀ b, ∀ a ∈ xs, Keeps cond failing (f b a)) (b : β) :
    Keeps cond failing (xs.foldlM f b) := by
  rw [← Array.foldlM_toList]
  exact .foldlM (fun b a ha ↦ hf b a (Array.mem_toList_iff.mp ha)) b

theorem Keeps.array_forM {f : α → Stateful σ PUnit} {xs : Array α}
    (hf : ∀ a ∈ xs, Keeps cond failing (f a)) : Keeps cond failing (xs.forM f) := by
  rw [array_forM_eq]
  exact .forM fun a ha ↦ hf a (Array.mem_toList_iff.mp ha)

section Relations

variable {R : σ → σ → Prop} [IsPreorder σ R] {s : σ}

/-- A relation to the state at first is a condition. -/
theorem keepsAt_of_moves {x : Stateful σ α} {s' : σ} (hs' : R s s') (h : R s' (x.run s').2) :
    KeepsAt (R s) (fun _ ↦ R s) x s' := by
  refine ⟨fun a t hr ↦ ?_, fun e t hr ↦ ?_⟩ <;>
  · rw [hr] at h
    exact IsTrans.trans _ _ _ hs' h

theorem keeps_of_moves {x : Stateful σ α} (h : ∀ s', R s s' → R s' (x.run s').2) :
    Keeps (R s) (fun _ ↦ R s) x :=
  fun s' hs' ↦ keepsAt_of_moves hs' (h s' hs')

theorem Keeps.moves {x : Stateful σ α} (h : Keeps (R s) (fun _ ↦ R s) x) : R s (x.run s).2 := by
  rcases hr : x.run s with ⟨e | a, t⟩
  · exact (h (refl s)).2 hr
  · exact (h (refl s)).1 hr

end Relations

end Stateful

open Stateful

namespace Build

variable {cond : Draft → Prop} {failing : Error → Draft → Prop}

/-- Operations may fail with ordinary errors and leave the draft as it is then. -/
def Allows (cond : Draft → Prop) (failing : Error → Draft → Prop) : Prop :=
  ∀ ⦃error : Error⦄, error.Basic → ∀ ⦃d⦄, cond d → failing error d

namespace Allows

variable (h : Allows cond failing)

include h

theorem query {question : Draft → Except Error α}
    (hquestion : ∀ d error, question d = .error error → error.Basic) :
    Keeps cond failing (Build.query question) := by
  intro d hd
  rw [run_query]
  refine ⟨fun a s hr ↦ ?_, fun error s hr ↦ ?_⟩
  · obtain ⟨-, rfl⟩ := Prod.mk.inj hr
    exact hd
  · obtain ⟨he, rfl⟩ := Prod.mk.inj hr
    exact h (hquestion _ _ he) hd

theorem node (id : NodeId) : Keeps cond failing (Build.node id) := by
  refine h.query fun d error he ↦ ?_
  unfold Draft.node at he
  split at he <;> cases he
  trivial

theorem typeOf (id : NodeId) : Keeps cond failing (Build.typeOf id) :=
  (h.node id).bind fun _ ↦ keeps_pure _

theorem lookupType (name : String) : Keeps cond failing (Build.lookupType name) := by
  refine h.query fun d error he ↦ ?_
  unfold Draft.lookupType at he
  split at he <;> cases he
  trivial

theorem argument (name : String) : Keeps cond failing (Build.argument name) := by
  refine h.query fun d error he ↦ ?_
  unfold Draft.argument at he
  split at he <;> cases he
  trivial

theorem checkOwned (id : NodeId) : Keeps cond failing (Build.checkOwned id) := by
  refine h.query fun d error he ↦ ?_
  split at he <;> cases he
  trivial

/-- Whether a node is neutral can be asked of nodes of the draft only. -/
theorem isNeutral (element : Neutral) (id : NodeId) : Keeps cond failing (Build.query fun d ↦ do
      let _ ← d.node id
      return d.isNeutral element id) := by
  refine h.query fun d error he ↦ ?_
  unfold Draft.node at he
  split at he <;> cases he
  trivial

theorem isZero (id : NodeId) : Keeps cond failing (Build.isZero id) := h.isNeutral .zero id

theorem isOne (id : NodeId) : Keeps cond failing (Build.isOne id) := h.isNeutral .one id

omit h in
theorem describe (id : NodeId) : Keeps cond failing (Build.describe id) :=
  keeps_get fun _ _ ↦ keeps_pure _

theorem fails {error : Error} (he : error.Basic) : Keeps cond failing (throw error : Build α) :=
  keeps_throw (h he)

/-- A failure that describes a node. -/
theorem describe_failure (id : NodeId) {error : String → Error} (he : ∀ text, (error text).Basic) :
    Keeps cond failing (do throw (error (← Build.describe id)) : Build α) :=
  (describe id).bind fun text ↦ h.fails (he text)

end Allows

end Build

end DiffGraph
