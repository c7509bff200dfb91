import DiffGraph.Proofs.Draft.Requests

/-!
Outcomes of operations. An operation attains what is asked of its result unless it is allowed to
fail. The draft that it leaves behind is sound and has all that was there before, so outcomes can be
put together one after the other.
-/

set_option autoImplicit false

namespace DiffGraph

open Stateful List Build

variable {d draft newer : Draft} {t type : String} {v value : Value}

theorem Node.kind_of_constant? {n : Node} (h : n.constant? = some value) :
    n.kind = .constant value := by
  unfold Node.constant? at h
  split at h
  next hk =>
    cases h
    exact hk
  · cases h

namespace Draft

/-- The node is a constant of the type. -/
def StoresConstant (d : Draft) (id : NodeId) (t : String) (v : Value) : Prop :=
  ∃ n, d.graph.node? id = some n ∧ n.type = t ∧ n.kind = .constant v ∧
    n.isAddress = false

section Constants

variable {id : NodeId}

theorem StoresConstant.later (h : d.Precedes newer)
    (hst : d.StoresConstant id t value) : newer.StoresConstant id t value := by
  obtain ⟨n, hn, hrs⟩ := hst
  exact ⟨n, h.graph.node? hn, hrs⟩

theorem StoresConstant.holdsValue (h : d.StoresConstant id type v) : d.HoldsValue id type := by
  obtain ⟨n, hn, ht, -, haddr⟩ := h
  exact ⟨n, hn, ht, haddr⟩

theorem StoresConstant.constant? (h : d.StoresConstant id t value) :
    (d.graph.node? id).bind Node.constant? = some value := by
  obtain ⟨n, hn, -, hk, -⟩ := h
  rw [hn, Option.bind_some, Node.constant?, hk]

/-- Constants with their types and values. -/
inductive StoreConstants (d : Draft) : List NodeId → List String → List Value → Prop
  | nil : StoreConstants d [] [] []
  | cons {id : NodeId} {t : String} {v : Value} {ids : List NodeId} {ts : List String}
      {values : List Value} (hfst : d.StoresConstant id t v)
      (hrs : StoreConstants d ids ts values) :
      StoreConstants d (id :: ids) (t :: ts) (v :: values)

variable {ids : List NodeId} {ts types : List String} {values : List Value}

theorem StoreConstants.holdsValue (h : d.StoreConstants ids types values) :
    List.Forall₂ d.HoldsValue ids types := by
  induction h with
  | nil => exact .nil
  | cons hfst _ ih => exact .cons hfst.holdsValue ih

theorem StoreConstants.constants? (h : d.StoreConstants ids ts values) :
    (ids.mapM fun id ↦ (d.graph.node? id).bind Node.constant?) = some values := by
  induction h with
  | nil => rfl
  | cons hfst _ ih =>
    rw [mapM_cons, hfst.constant?, ih]
    rfl

theorem StoreConstants.later (h : d.Precedes newer)
    (hst : d.StoreConstants ids ts values) : newer.StoreConstants ids ts values := by
  induction hst with
  | nil => exact .nil
  | cons hfst _ ih => exact .cons (hfst.later h) ih

/-- Values that turn out to be constants. -/
theorem storeConstants_of_constants? (hts : List.Forall₂ d.HoldsValue ids ts)
    (h : (ids.mapM fun id ↦ (d.graph.node? id).bind Node.constant?) = some values) :
    d.StoreConstants ids ts values := by
  induction hts generalizing values with
  | nil =>
    cases h
    exact .nil
  | cons hhd _ ih =>
    obtain ⟨n, hn, ht, haddr⟩ := hhd
    simp only [mapM_cons, hn, Option.bind_some, Option.bind_eq_bind, Option.bind_eq_some_iff] at h
    obtain ⟨v, hv, rest, hrs, heq⟩ := h
    cases heq
    exact .cons ⟨n, hn, ht, Node.kind_of_constant? hv, haddr⟩ (ih hrs)

end Constants

/-- A later draft in which nothing more is written. -/
structure Grows (older newer : Draft) : Prop extends older.Precedes newer where
  same_writes : newer.writes = older.writes

theorem Grows.refl (draft : Draft) : draft.Grows draft := ⟨.refl draft, rfl⟩

theorem Grows.trans {first middle last : Draft} (hfst : first.Grows middle)
    (hla : middle.Grows last) : first.Grows last :=
  ⟨hfst.toPrecedes.trans hla.toPrecedes, hla.same_writes.trans hfst.same_writes⟩

/-- The operation comes to a result as described, or it fails, if it may. It writes nothing. -/
def Attains {α : Type} (d : Draft) (x : Build α) (mayFail : Prop) (res : Draft → α → Prop) : Prop :=
  (∃ a d', x.run d = (.ok a, d') ∧ d.Grows d' ∧ d'.Sound ∧
    res d' a) ∨
  mayFail ∧ ∃ error d', x.run d = (.error error, d')

section Attaining

variable {α β : Type} {d' : Draft} {x : Build α} {mayFail : Prop}
  {res result : Draft → α → Prop}

theorem Attains.of_ok (h : d.Attains x mayFail res) {a : α} (hr : x.run d = (.ok a, d')) :
    d.Grows d' ∧ d'.Sound ∧ res d' a := by
  rcases h with ⟨m, reached, hf, hrs⟩ | ⟨-, error, reached, he⟩
  · cases hr.symm.trans hf
    exact hrs
  · cases hr.symm.trans he

/-- An operation that may not fail comes to a result. -/
theorem Attains.exists_ok (h : d.Attains x False res) :
    ∃ a d', x.run d = (.ok a, d') ∧ d.Grows d' ∧ d'.Sound ∧ res d' a :=
  h.resolve_right fun hfl ↦ hfl.1

theorem Attains.of_run {other : Build α} (h : d.Attains other mayFail result)
    (hr : x.run d = other.run d) : d.Attains x mayFail result := by
  unfold Attains
  rw [hr]
  exact h

theorem Attains.mono (h : d.Attains x mayFail res) {mayFail' : Prop}
    {result' : Draft → α → Prop} (hfail : mayFail → mayFail')
    (hres : ∀ {d' a}, d.Precedes d' → d'.Sound → res d' a → result' d' a) :
    d.Attains x mayFail' result' := by
  rcases h with ⟨a, d', hr, hgr, hs, ha⟩ | ⟨hfl, he⟩
  · exact .inl ⟨a, d', hr, hgr, hs, hres hgr.toPrecedes hs ha⟩
  · exact .inr ⟨hfail hfl, he⟩

theorem attains_of_ok (hs : d.Sound) {a : α} (hr : x.run d = (.ok a, d))
    (ha : result d a) : d.Attains x mayFail result :=
  .inl ⟨a, d, hr, .refl d, hs, ha⟩

theorem attains_pure (hs : d.Sound) {a : α} (ha : result d a) : d.Attains (pure a) mayFail result :=
  attains_of_ok hs (run_pure a d) ha

theorem Attains.bind (h : d.Attains x mayFail res) {next : α → Build β} {result' : Draft → β → Prop}
    (hnx : ∀ {a d'}, d.Precedes d' → d'.Sound → res d' a → d'.Attains (next a) mayFail result') :
    d.Attains (x >>= next) mayFail result' := by
  rcases h with ⟨a, middle, hr, hmid, hs, ha⟩ | ⟨hfl, error, middle, hr⟩
  · rcases hnx hmid.toPrecedes hs ha with
      ⟨b, d', hla, haf, hrs⟩ | ⟨hfl, error, d', hla⟩
    · exact .inl ⟨b, d', (run_bind_of_ok hr).trans hla, hmid.trans haf, hrs⟩
    · exact .inr ⟨hfl, error, d', (run_bind_of_ok hr).trans hla⟩
  · exact .inr ⟨hfl, error, middle, run_bind_of_error hr⟩

/-- A first part that leaves the draft as it is. -/
theorem Attains.after_ok {next : α → Build β} {result' : Draft → β → Prop} {a : α}
    (h : d.Attains (next a) mayFail result') (hr : x.run d = (.ok a, d)) :
    d.Attains (x >>= next) mayFail result' :=
  h.of_run (run_bind_of_ok hr)

/-- Operations one after another, each of which finds the draft as the earlier ones left it. -/
theorem attains_mapM {f : α → Build β} {l : List α} {res : α → Draft → β → Prop}
    (hlater : ∀ {a b older newer}, older.Precedes newer → res a older b → res a newer b)
    (hs : d.Sound)
    (hf : ∀ a ∈ l, ∀ {d' : Draft}, d.Precedes d' → d'.Sound → d'.Attains (f a) mayFail (res a)) :
    d.Attains (l.mapM f) mayFail fun d' bs ↦ List.Forall₂ (fun a b ↦ res a d' b) l bs := by
  induction l generalizing d with
  | nil => exact attains_pure hs .nil
  | cons a l ih =>
    rw [mapM_cons]
    obtain ⟨ha, hl⟩ := forall_mem_cons.mp hf
    refine (ha (.refl d) hs).bind fun {b middle} hmid hmiddleSound hb ↦ ?_
    have hrs := ih hmiddleSound fun other ho _ hpr ↦ hl other ho (hmid.trans hpr)
    refine hrs.bind fun {bs d'} hpr haf hbs ↦ ?_
    exact attains_pure haf (.cons (hlater hpr hb) hbs)

theorem attains_foldlM {f : β → α → Build β} {l : List α} {b : β} {result : Draft → β → Prop}
    (hs : d.Sound) (hb : result d b)
    (hf : ∀ a ∈ l, ∀ {d' : Draft} {b : β}, d.Precedes d' → d'.Sound → result d' b →
      d'.Attains (f b a) mayFail result) :
    d.Attains (l.foldlM f b) mayFail result := by
  induction l generalizing d b with
  | nil => exact attains_pure hs hb
  | cons a l ih =>
    rw [foldlM_cons]
    obtain ⟨ha, hl⟩ := forall_mem_cons.mp hf
    refine (ha (.refl d) hs hb).bind fun {b middle} hmid hmiddleSound hb ↦ ?_
    exact ih hmiddleSound hb fun other ho _ _ hpr ↦ hl other ho (hmid.trans hpr)

/-- Where an operation only makes elementary changes, its outcome is all there is to say. -/
theorem attains_of_leads (hld : d.Leads (x.run d).2) (hs : d.Sound)
    (h : (∃ a d', x.run d = (.ok a, d') ∧ d'.writes = d.writes ∧
        (d.Precedes d' → d'.Sound → result d' a)) ∨
      mayFail ∧ ∃ error d', x.run d = (.error error, d')) :
    d.Attains x mayFail result := by
  rcases h with ⟨a, d', hr, hws, ha⟩ | he
  · have hpr := hld.precedes hr hs
    have haf := hld.sound hr hs
    exact .inl ⟨a, d', hr, ⟨hpr, hws⟩, haf, ha hpr haf⟩
  · exact .inr he

theorem attains_constant (hs : d.Sound) {defn : TypeDefinition}
    (hg : d.types.get? t = some defn) (v : Value) :
    d.Attains (Build.constant t v) mayFail fun d' id ↦
      d'.StoresConstant id t (defn.normalize v) := by
  have owned : ∀ operand ∈ (NodeKind.constant (defn.normalize v)).operands,
      d.graph.Owns operand := forall_mem_nil _
  have hr : (Build.constant t v).run d = _ :=
    (run_bind_of_ok (run_lookupType_of_some hg)).trans (run_intern owned)
  refine attains_of_leads (constant_enlarges t v d).leads hs (.inl ⟨_, _, hr, rfl, fun _ _ ↦ ?_⟩)
  obtain ⟨m, n, hf, hn⟩ := ok_of_run_constant hs hr
  cases hg.symm.trans hf
  exact ⟨n, hn⟩

/-- An address can be read. -/
theorem attains_read (hs : d.Sound) {addr : NodeId} {tgt : Node}
    (htg : d.graph.node? addr = some tgt) (haddr : tgt.isAddress = true) :
    d.Attains (Build.read addr) mayFail fun d' id ↦ ∃ n,
      d'.graph.node? id = some n ∧ n.kind = .read addr ∧ n.type = tgt.type ∧
        n.isAddress = false := by
  have owned : ∀ operand ∈ (NodeKind.read addr).operands, d.graph.Owns operand :=
    forall_mem_singleton.mpr (Graph.owns_of_node? htg)
  have hr := (run_read htg haddr).trans (run_intern owned)
  refine attains_of_leads (read_enlarges addr d).leads hs (.inl ⟨_, _, hr, rfl, fun _ _ ↦ ?_⟩)
  obtain ⟨_, n, hf, -, hn⟩ := ok_of_run_read hs hr
  cases htg.symm.trans hf
  exact ⟨n, hn⟩

end Attaining

section Finishing

variable {ids : List NodeId} {op : Operator} {isAddress : Bool} {x : Build NodeId}
  {replace : Operator → String → List NodeId → Build (Option NodeId)}

theorem run_bind_some (next : Build NodeId) :
    ((do return some (← x) : Build (Option NodeId)) >>= fun
      | some id => pure id
      | none => next).run draft = x.run draft := by
  rw [bind_assoc]
  simp only [pure_bind]
  exact congrArg (fun step : Build NodeId ↦ step.run draft) (bind_pure x)

/-- Evaluation comes before anything else. -/
theorem run_finish_evaluated (h : (Build.evaluate? op t ids).run draft =
      (do return some (← x) : Build (Option NodeId)).run draft) :
    (Build.finish replace op t ids isAddress).run draft = x.run draft := by
  rw [Build.finish, run_bind_congr h]
  exact run_bind_some _

theorem run_finish_replaced (hev : (Build.evaluate? op t ids).run draft = (.ok none, draft))
    (h : (replace op t ids).run draft = (do return some (← x) : Build (Option NodeId)).run draft) :
    (Build.finish replace op t ids isAddress).run draft = x.run draft := by
  rw [Build.finish, run_bind_of_ok hev]
  dsimp only
  rw [run_bind_congr h]
  exact run_bind_some _

/-- What is not evaluated is replaced or becomes a node. -/
theorem run_finish_formed {mayFail : Prop} {res : Draft → NodeId → Prop}
    (howd : ∀ id ∈ ids, d.graph.Owns id) (hev : (Build.evaluate? op t ids).run d = (.ok none, d))
    (hrep : d.Attains (replace op t ids) mayFail fun d' m ↦ ∀ id, m = some id → res d' id)
    (hformed : ∀ {d' : Draft} {id : NodeId} {n : Node}, d.Precedes d' → d'.Sound →
      d'.graph.node? id = some n → n.type = t →
      n.kind = .expression op ids → res d' id) :
    (∃ id d', (Build.finish replace op t ids isAddress).run d =
        (.ok id, d') ∧ d'.writes = d.writes ∧ (d.Precedes d' → d'.Sound → res d' id)) ∨
      mayFail ∧ ∃ error d', (Build.finish replace op t ids isAddress).run d =
        (.error error, d') := by
  rw [Build.finish, run_bind_of_ok hev]
  dsimp only
  rcases hrep with ⟨m, middle, hr, hmid, hkept, hf⟩ | ⟨hfl, error, d', hr⟩
  · rw [run_bind_of_ok hr]
    cases m with
    | some id => exact .inl ⟨id, middle, rfl, hmid.same_writes, fun _ _ ↦ hf id rfl⟩
    | none =>
      have owned : ∀ operand ∈ (NodeKind.expression op ids).operands,
          middle.graph.Owns operand := fun operand hop ↦
        hmid.graph.owns (howd operand hop)
      refine .inl ⟨_, _, run_intern owned, hmid.same_writes, fun hl haf ↦ ?_⟩
      obtain ⟨n, hn, ht, hk⟩ := Graph.node?_intern hkept.interned owned
      exact hformed hl haf hn ht hk
  · exact .inr ⟨hfl, error, d', run_bind_of_error hr⟩

end Finishing

end Draft

end DiffGraph
