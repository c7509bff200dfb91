import DiffGraph.Proofs.Draft.Nodes

/-!
Construction as a chain of elementary changes. Whatever request is met, with whatever operators, and
whether it succeeds or fails, the draft is only changed by forming nodes and by extending types. The
conditions under which an application becomes a node are collected on the way to it. A request is met
with a node of the draft, if rules hand on no nodes but those that they were given, that their
requests were met with, or that they found as operands (`Build.serves_perform`).
-/

set_option autoImplicit false

namespace DiffGraph

open List Stateful Draft Build Graph TypeTable

variable {α : Type} {d draft d' : Draft} {t type name : String} {id addr base : NodeId}
  {cond : Draft → Prop} {failing : Error → Draft → Prop} {given ids k : List NodeId}
  {ts : List String} {pos : Nat} {onAddress : NodeId → Request} {v : Operand} {op : Operator}

namespace Draft

/-- The draft is sound, and the rules of its operators hand on nodes that they know. -/
structure Orderly (d : Draft) : Prop where
  sound : d.Sound
  handsOn : d.operators.HandsOn

theorem Orderly.later {older newer : Draft} (h : older.Orderly) (hs : newer.Sound)
    (hpr : older.Precedes newer) : newer.Orderly :=
  ⟨hs, hpr.operators ▸ h.handsOn⟩

theorem Orderly.run {x : Build α} {outcome : Except Error α} (h : d.Orderly)
    (hld : d.Leads (x.run d).2) (hr : x.run d = (outcome, d')) :
    d'.Orderly :=
  h.later (hld.sound hr h.sound) (hld.precedes hr h.sound)

end Draft

/-- A plan changes a draft only through the requests it makes. -/
theorem Plan.run_leads {perform : Request → Build NodeId}
    (hperform : ∀ q d, Leads d ((perform q).run d).2) (plan : Plan α)
    (d : Draft) : Leads d ((plan.run perform).run d).2 := by
  induction plan generalizing d with
  | done res => exact moves_pure res d
  | fail error => exact moves_throw error d
  | build q next ih =>
    exact moves_bind (hperform q d) fun answer d' _ ↦ ih answer d'
  | inspect id next ih =>
    exact moves_bind (moves_query _ _) fun n d' _ ↦ ih n d'
  | isZero _ _ ih | isOne _ _ ih =>
    exact moves_bind (moves_query _ _) fun answer d' _ ↦ ih answer d'

namespace Build

/-- Requests change a draft by elementary changes, and requests for expressions keep the function if
rules only build expressions. Requests are met with nodes of the draft if rules hand on nodes that
they know. -/
def Serves (perform : Request → Build NodeId) : Prop :=
  ∀ q d, d.Sound → Steps d ((perform q).run d).2 ∧
    (q.Builds → d.Retains ((perform q).run d).2) ∧
    (d.operators.HandsOn → ∀ id d', (perform q).run d = (.ok id, d') →
      d'.graph.Owns id)

variable {perform : Request → Build NodeId} (h : Serves perform) {q request : Request}

include h

theorem Serves.leads (q : Request) (d : Draft) : Leads d ((perform q).run d).2 :=
  fun hs ↦ (h q d hs).1

theorem Serves.enlarges (hbld : q.Builds) (d : Draft) : Enlarges d ((perform q).run d).2 :=
  fun hs ↦ ⟨(h q d hs).1, (h q d hs).2.1 hbld⟩

theorem Serves.owns (hor : d.Orderly) (hr : (perform q).run d = (.ok id, d')) : d'.graph.Owns id :=
  (h q d hor.sound).2.2 hor.handsOn id d' hr

end Build

/-- A plan that only builds expressions wherever all rules do. -/
theorem Plan.run_enlarges {perform : Request → Build NodeId} (hperform : Build.Serves perform)
    {plan : Plan α} {res : List NodeId → α → Prop}
    (h : d.operators.Builds → plan.Confined Request.Builds res k) :
    Enlarges d ((plan.run perform).run d).2 := by
  induction plan generalizing k d with
  | done res => exact moves_pure res d
  | fail error => exact moves_throw error d
  | build q next ih =>
    refine .of_sound fun hs ↦ ?_
    have hreq : Enlarges d ((perform q).run d).2 := fun hs ↦ ⟨(hperform q d hs).1, fun hbld ↦
        (hperform q d hs).2.1 (h hbld).1 hbld⟩
    have hl := hreq.precedes rfl hs
    refine moves_bind hreq fun answer d' hans ↦ ?_
    obtain ⟨-, rfl⟩ := Prod.mk.inj ((run_observe _ _).symm.trans hans)
    cases answer with
    | ok id => exact ih _ fun hbld ↦ (h (hl.operators ▸ hbld)).2.1 id
    | error error => exact ih _ fun hbld ↦ (h (hl.operators ▸ hbld)).2.2 error
  | inspect id next ih =>
    refine moves_bind (moves_query _ _) fun n d' hn ↦ ?_
    obtain ⟨-, rfl⟩ := ok_of_run_node hn
    exact ih n fun hbld ↦ h hbld n
  | isZero _ _ ih | isOne _ _ ih =>
    refine moves_bind (moves_query _ _) fun answer d' hans ↦ ?_
    obtain ⟨-, rfl⟩ := ok_of_run_query hans
    exact ih answer fun hbld ↦ h hbld answer

/-- What a plan knows at its end are nodes of the draft. -/
theorem Plan.owns_of_run {perform : Request → Build NodeId}
    (hperform : Build.Serves perform) {plan : Plan α} {allowed : Request → Prop}
    {res : List NodeId → α → Prop} (hplan : plan.Confined allowed res k) {m : α} (hor : d.Orderly)
    (hkn : ∀ id ∈ k, d.graph.Owns id) (h : (plan.run perform).run d = (.ok m, d')) :
    ∃ later, res later m ∧ ∀ id ∈ later, d'.graph.Owns id := by
  induction plan generalizing k d with
  | done res =>
    obtain ⟨rfl, rfl⟩ := ok_of_run_pure h
    exact ⟨k, hplan, hkn⟩
  | fail error => cases h
  | build q next ih =>
    obtain ⟨answer, s, hans, hnx⟩ := ok_of_run_bind h
    obtain ⟨hmet, rfl⟩ := Prod.mk.inj ((run_observe _ _).symm.trans hans)
    have hl := (hperform.leads q d).precedes rfl hor.sound
    have hkn' : ∀ id ∈ k, ((perform q).run d).2.graph.Owns id :=
      fun id hid ↦ hl.graph.owns (hkn id hid)
    have horderly' := hor.run (hperform.leads q d) rfl
    cases answer with
    | ok id =>
      have hown := hperform.owns hor (Prod.ext (Except.ok.inj hmet) rfl)
      exact ih _ (hplan.2.1 id) horderly' (forall_mem_cons.mpr ⟨hown, hkn'⟩) hnx
    | error error => exact ih _ (hplan.2.2 error) horderly' hkn' hnx
  | inspect id next ih =>
    obtain ⟨n, s, hf, hnx⟩ := ok_of_run_bind h
    obtain ⟨hn, rfl⟩ := ok_of_run_node hf
    refine ih n (hplan n) hor (fun other ho ↦ ?_) hnx
    rcases mem_append.mp ho with hop | ho
    · exact owns_operand hn hop
    · exact hkn other ho
  | isZero _ _ ih | isOne _ _ ih =>
    obtain ⟨answer, s, hans, hnx⟩ := ok_of_run_bind h
    obtain ⟨-, rfl⟩ := ok_of_run_query hans
    exact ih answer (hplan answer) hor hkn hnx

namespace Build

/-- The operation enlarges the draft. What it yields belongs to the draft if rules hand on nodes that
they know. -/
def Grants (granted : α → NodeId → Prop) (x : Build α) (d : Draft) : Prop :=
  Enlarges d (x.run d).2 ∧
    (d.Orderly → ∀ res, (x.run d).1 = .ok res →
      ∀ id, granted res id → (x.run d).2.graph.Owns id)

/-- The same for operations that may yield a node. -/
abbrev Grants? (x : Build (Option NodeId)) (d : Draft) : Prop :=
  Grants (fun m id ↦ m = some id) x d

section Grants

variable {granted : α → NodeId → Prop} {β : Type}

theorem Grants.of_sound {x : Build α} (h : draft.Sound → Grants granted x draft) :
    Grants granted x draft :=
  ⟨.of_sound fun hs ↦ (h hs).1, fun hor ↦ (h hor.sound).2 hor⟩

theorem Grants.of_owns {x : Build NodeId} (h : Enlarges draft (x.run draft).2)
    (how : ∀ {id d'}, draft.Sound → x.run draft = (.ok id, d') → d'.graph.Owns id) :
    Grants Eq x draft :=
  ⟨h, fun hor _ hres _ hid ↦ hid ▸ how hor.sound (Prod.ext hres rfl)⟩

theorem Grants.owns {x : Build NodeId} (h : Grants Eq x d)
    (hor : d.Orderly) (hr : x.run d = (.ok id, d')) :
    d'.graph.Owns id := by
  have how := h.2 hor id (by rw [hr]) id rfl
  rwa [hr] at how

/-- What is done first enlarges the draft too. -/
theorem Grants.of_run {x next : Build α} {reached : Draft}
    (hreached : Enlarges draft reached) (hr : x.run draft = next.run reached)
    (h : Grants granted next reached) : Grants granted x draft := by
  refine ⟨?_, fun hor ↦ ?_⟩
  · rw [hr]
    exact IsTrans.trans _ _ _ hreached h.1
  · have hsts := (hreached hor.sound).1
    rw [hr]
    exact h.2 (hor.later (hor.sound.steps hsts) (Steps.precedes hsts))

theorem Serves.grants {perform : Request → Build NodeId} (h : Serves perform) {q : Request}
    (hbld : q.Builds) (draft : Draft) : Grants Eq (perform q) draft :=
  ⟨h.enlarges hbld draft, fun hor _ hres _ hid ↦ hid ▸ h.owns hor (Prod.ext hres rfl)⟩

theorem grants_throw (error : Error) (draft : Draft) :
    Grants granted (throw error : Build α) draft :=
  ⟨moves_throw error draft, fun _ _ h ↦ by cases h⟩

theorem grants_none (draft : Draft) : Grants? (pure none) draft :=
  ⟨moves_pure _ _, fun _ _ h _ hid ↦ by cases h; cases hid⟩

/-- The second part yields what the sequence yields. -/
theorem grants_bind {x : Build β} {f : β → Build α} (hx : Enlarges draft (x.run draft).2)
    (hf : ∀ b s, x.run draft = (.ok b, s) → Grants granted (f b) s) :
    Grants granted (x >>= f) draft := by
  refine ⟨moves_bind hx fun b s h ↦ (hf b s h).1, fun hor res hres ↦ ?_⟩
  rcases hr : x.run draft with ⟨e | b, s⟩
  · rw [run_bind_of_error hr] at hres
    cases hres
  · rw [run_bind_of_ok hr] at hres ⊢
    exact (hf b s hr).2 (hor.run hx.leads hr) res hres

theorem grants_pure (h : draft.Orderly → draft.graph.Owns id) : Grants Eq (pure id) draft :=
  ⟨moves_pure _ _, fun hor _ hres _ hid ↦ by cases hres; exact hid ▸ h hor⟩

/-- What the first part yields belongs to the draft when the second part begins. -/
theorem Grants.bind {granted' : β → NodeId → Prop} {x : Build α} {f : α → Build β}
    (hx : Grants granted x draft) (hs : draft.Sound) (hf : ∀ a s, x.run draft = (.ok a, s) →
      (s.Orderly → ∀ id, granted a id → s.graph.Owns id) → Grants granted' (f a) s) :
    Grants granted' (x >>= f) draft := by
  refine grants_bind hx.1 fun a s hr ↦ hf a s hr fun hor id hid ↦ ?_
  have hhandsOn := (hx.1.precedes hr hs).operators ▸ hor.handsOn
  have how := hx.2 ⟨hs, hhandsOn⟩ a (by rw [hr]) id hid
  rwa [hr] at how

theorem Grants.some {x : Build NodeId} (hx : Grants Eq x draft) :
    Grants? (do return some (← x)) draft := by
  refine ⟨moves_bind hx.1 fun _ _ _ ↦ moves_pure _ _, fun hor res hres ↦ ?_⟩
  rcases hr : x.run draft with ⟨e | found, s⟩
  · rw [run_bind_of_error hr] at hres
    cases hres
  · have how := hx.2 hor found (by rw [hr]) found rfl
    rw [hr] at how
    rw [run_bind_of_ok hr] at hres ⊢
    cases hres
    exact fun id hid ↦ Option.some.inj hid ▸ how

end Grants

section Nodes

theorem owns_of_run_intern {kind : NodeKind} {isAddress : Bool} (hs : d.Sound)
    (h : (intern t kind isAddress).run d = (.ok id, d')) : d'.graph.Owns id := by
  obtain ⟨owned, rfl, rfl⟩ := ok_of_run_intern h
  obtain ⟨n, hn, -⟩ := node?_intern hs.interned owned
  exact owns_of_node? hn

theorem owns_of_run_constant {v : Value} (hs : d.Sound)
    (h : (constant t v).run d = (.ok id, d')) : d'.graph.Owns id := by
  obtain ⟨_, n, -, hn, -⟩ := ok_of_run_constant hs h
  exact owns_of_node? hn

theorem owns_of_run_one (hs : d.Sound) (h : (one t).run d = (.ok id, d')) : d'.graph.Owns id := by
  obtain ⟨defn, s, hlk, hone⟩ := ok_of_run_bind h
  obtain ⟨-, rfl⟩ := ok_of_run_lookupType hlk
  split at hone
  · exact owns_of_run_constant hs hone
  · exact owns_of_run_constant hs hone
  · exact owns_of_run_constant hs hone
  · cases hone
  · cases hone

theorem owns_of_run_read (hs : d.Sound) (h : (read addr).run d = (.ok id, d')) :
    d'.graph.Owns id := by
  obtain ⟨_, n, -, -, hn, -⟩ := ok_of_run_read hs h
  exact owns_of_node? hn

theorem owns_of_run_declare {dir : Direction} (hs : d.Sound)
    (h : (declare name t dir).run d = (.ok id, d')) : d'.graph.Owns id := by
  obtain ⟨_, s, hlk, hrs⟩ := ok_of_run_bind h
  obtain ⟨-, rfl⟩ := ok_of_run_lookupType hlk
  obtain ⟨_, s, hg, hfr⟩ := ok_of_run_bind hrs
  obtain ⟨-, rfl⟩ := ok_of_run_get hg
  split at hfr
  · cases hfr
  obtain ⟨m, s', hintern, hmodify⟩ := ok_of_run_bind hfr
  have how := owns_of_run_intern hs hintern
  cases hmodify
  exact how

theorem owns_of_run_write (hs : d.Sound)
    (h : (write addr v).run d = (.ok id, d')) : d'.graph.Owns id := by
  obtain ⟨_, n, _, -, -, hn, -⟩ := ok_of_run_write_any hs h
  exact owns_of_node? hn

end Nodes

section Applications

variable {d' : Draft} {op operator : Operator} {t type : String} {args operands : List NodeId}

theorem Forming.floatTypeAmong (h : Forming cond failing) (args : List Operand) :
    Keeps cond failing (floatTypeAmong args) := by
  induction args with
  | nil => exact keeps_pure none
  | cons arg rest ih =>
    cases arg with
    | node id =>
      refine (h.allows.checkOwned id).bind fun _ ↦ (h.allows.typeOf id).bind fun _ ↦ ?_
      exact keeps_get fun _ _ ↦ ih.bind fun _ ↦ keeps_pure _
    | float | int => exact ih

theorem Forming.coerce (h : Forming cond failing) (args : List Operand) :
    Keeps cond failing (coerce args) := by
  refine (h.floatTypeAmong args).bind fun floatType ↦ .mapM fun arg ↦ ?_
  cases arg with
  | node id => exact keeps_pure id
  | float | int => exact h.constant _ _

theorem coerce_enlarges (args : List Operand) (d : Draft) : Enlarges d ((coerce args).run d).2 :=
  ((forming_enlarges d).coerce args).moves

theorem run_constants? (args : List NodeId) (d : Draft) : (constants? args).run d =
      (.ok (args.mapM fun id ↦ (d.graph.node? id).bind Node.constant?), d) := rfl

theorem constant_grants (t : String) (v : Value) (draft : Draft) : Grants Eq (constant t v) draft :=
  .of_owns (constant_enlarges _ _ _) owns_of_run_constant

theorem read_grants (addr : NodeId) (draft : Draft) : Grants Eq (read addr) draft :=
  .of_owns (read_enlarges _ _) owns_of_run_read

/-- A search that passes on what it found does not come back without anything. -/
theorem run_some_ne_none {x : Build NodeId} :
    (do return some (← x) : Build (Option NodeId)).run d ≠ (.ok none, d') := by
  intro h
  obtain ⟨id, s, -, hret⟩ := ok_of_run_bind h
  cases (ok_of_run_pure hret).1

/-- Evaluation finds nothing, finds a constant, or fails because it does not know the type. -/
theorem run_evaluate?_cases (op : Operator) (t : String) (args : List NodeId) (d : Draft) :
    (evaluate? op t args).run d = (.ok none, d) ∨
    (∃ v, (evaluate? op t args).run d =
      (do return some (← constant t v) : Build (Option NodeId)).run d) ∨
    ∃ error : Error, error.Basic ∧ (evaluate? op t args).run d = (.error error, d) := by
  cases op with
  | registered name ov =>
    rw [evaluate?, run_get_bind]
    split
    · exact .inl rfl
    · rw [run_bind_of_ok (run_constants? args d)]
      split
      · exact .inl rfl
      · exact .inr (.inl ⟨_, rfl⟩)
  | construct =>
    rw [evaluate?, run_bind_of_ok (run_constants? args d)]
    split
    · exact .inl rfl
    · cases hg : d.types.get? t with
      | none =>
        have hunknown : (lookupType t).run d = (.error (.typing (.unknown t)), d) := by
          rw [lookupType, run_query, Draft.lookupType, hg]
        exact .inr (.inr ⟨.typing (.unknown t), trivial, run_bind_of_error hunknown⟩)
      | some defn =>
        rw [run_bind_of_ok (run_lookupType_of_some hg)]
        dsimp only
        split
        · exact .inl rfl
        · exact .inr (.inl ⟨_, rfl⟩)
  | member | index => exact .inl rfl

theorem evaluate?_grants (op : Operator) (t : String) (args : List NodeId)
    (draft : Draft) : Grants? (evaluate? op t args) draft := by
  rcases run_evaluate?_cases op t args draft with hr | ⟨v, hr⟩ | ⟨_, -, hr⟩
  · exact .of_run (refl draft) hr (grants_none draft)
  · exact .of_run (refl draft) hr (constant_grants _ _ _).some
  · exact .of_run (refl draft) hr (grants_throw _ draft)

/-- An evaluation that finds nothing leaves the draft as it is. -/
theorem draft_eq_of_run_evaluate?_none
    (h : (evaluate? op t args).run draft = (.ok none, d')) : d' = draft := by
  rcases run_evaluate?_cases op t args draft with hr | ⟨v, hr⟩ | ⟨_, -, hr⟩
  · cases hr.symm.trans h
    rfl
  · exact absurd (hr.symm.trans h) run_some_ne_none
  · cases hr.symm.trans h

theorem project_grants {perform : Request → Build NodeId} (hperform : Serves perform)
    (hbld : ∀ id, (onAddress id).Builds) (t : String) (base : NodeId) (slot : Nat) (draft : Draft) :
    Grants? (project perform onAddress t base slot) draft := by
  unfold project
  refine grants_bind (moves_query _ _) fun n d' hf ↦ ?_
  obtain ⟨hn, rfl⟩ := ok_of_run_node hf
  split
  · split
    · exact (constant_grants _ _ _).some
    · exact grants_none _
  next parts hk =>
    refine ⟨moves_pure _ _, fun _ _ hp id hid ↦ owns_operand hn ?_⟩
    rw [Node.operands, hk]
    exact mem_of_getElem? ((Except.ok.inj hp).trans hid)
  · exact grants_bind (hperform.enlarges (hbld _) _) fun part _ _ ↦ (read_grants _ _).some
  · exact grants_none _

theorem replace?_grants {perform : Request → Build NodeId} (hperform : Serves perform)
    (op : Operator) (t : String) (args : List NodeId) (draft : Draft)
    (howd : ∀ arg ∈ args, draft.graph.Owns arg) :
    Grants? (replace? perform op t args) draft := by
  unfold replace?
  split
  · refine grants_bind (refl draft) fun _ d' hg ↦ ?_
    obtain ⟨rfl, rfl⟩ := ok_of_run_get hg
    split
    next rule hru =>
      obtain ⟨ov, hov, hrep⟩ := Option.bind_eq_some_iff.mp hru
      have hls := Registry.mem_of_overload? hov
      refine ⟨Plan.run_enlarges hperform fun hbld ↦
        (hbld ov hls).replace rule hrep _, fun hor m hf id hid ↦ ?_⟩
      obtain ⟨later, hl, hkn⟩ := Plan.owns_of_run hperform
        ((hor.handsOn ov hls).replace rule hrep _) hor howd
        (Prod.ext hf rfl)
      exact hkn id (hl id hid)
    next => exact grants_none _
  · refine grants_bind (refl draft) fun _ d' _ ↦ ?_
    refine grants_bind (moves_typeOf _ _) fun _ d' _ ↦ ?_
    split
    · exact project_grants hperform (fun _ ↦ by trivial) _ _ _ _
    · exact grants_none _
  · exact project_grants hperform (fun _ ↦ by trivial) _ _ _ _
  · exact grants_none _
  · exact grants_none _
  · exact grants_none _

/-- The search for a slot changes nothing but the graph, as far as requests for slots do so. -/
theorem project_keepsRest {perform : Request → Build NodeId}
    (hperform : ∀ id d, KeepsRest d ((perform (onAddress id)).run d).2) (t : String)
    (base : NodeId) (slot : Nat) (d : Draft) :
    KeepsRest d ((project perform onAddress t base slot).run d).2 := by
  unfold project
  refine moves_bind (moves_query _ _) fun n s _ ↦ ?_
  split
  · split
    · exact moves_bind (constant_keepsRest _ _ _) fun _ _ _ ↦ moves_pure _ _
    · exact moves_pure _ _
  · exact moves_pure _ _
  · refine moves_bind (hperform _ _) fun _ _ _ ↦ ?_
    exact moves_bind (read_keepsRest _ _) fun _ _ _ ↦ moves_pure _ _
  · exact moves_pure _ _

/-- The search for a slot finds values only, and leaves no trace if it finds nothing. -/
theorem ok_of_run_project {perform : Request → Build NodeId} (hperform : Serves perform)
    {slot : Nat} (hs : d.Sound) {m : Option NodeId}
    (h : (project perform onAddress type base slot).run d = (.ok m, d')) :
    (m = none → d' = d) ∧ ∀ id, m = some id → ∃ type, d'.HoldsValue id type := by
  unfold project at h
  obtain ⟨n, s, hf, hrs⟩ := ok_of_run_bind h
  obtain ⟨hn, rfl⟩ := ok_of_run_node hf
  split at hrs
  · split at hrs
    · obtain ⟨constant, last, hc, hret⟩ := ok_of_run_bind hrs
      obtain ⟨rfl, rfl⟩ := ok_of_run_pure hret
      obtain ⟨_, n, -, hn, -, -, haddr⟩ := ok_of_run_constant hs hc
      refine ⟨fun hno ↦ (by cases hno), fun id hid ↦ ?_⟩
      cases hid
      exact ⟨_, n, hn, rfl, haddr⟩
    · obtain ⟨rfl, rfl⟩ := ok_of_run_pure hrs
      exact ⟨fun _ ↦ rfl, fun id hid ↦ (by cases hid)⟩
  next parts hk =>
    obtain ⟨rfl, rfl⟩ := ok_of_run_pure hrs
    refine ⟨fun _ ↦ rfl, fun id hid ↦ ?_⟩
    obtain ⟨before, hbf, hfi, -⟩ := hs.expression hn hk
    generalize n.isAddress = isAddress at hfi
    cases hfi with
    | construct _ _ hops =>
      obtain ⟨type, hholds⟩ := hops id (mem_of_getElem? hid)
      exact ⟨type, hholds.later hbf⟩
  · obtain ⟨part, s', hp, hrd⟩ := ok_of_run_bind hrs
    obtain ⟨read, last, hrd, hret⟩ := ok_of_run_bind hrd
    obtain ⟨rfl, rfl⟩ := ok_of_run_pure hret
    obtain ⟨_, n, -, -, hn, -, -, haddr⟩ := ok_of_run_read ((hperform.leads _ _).sound hp hs) hrd
    refine ⟨fun hno ↦ (by cases hno), fun id hid ↦ ?_⟩
    cases hid
    exact ⟨_, n, hn, rfl, haddr⟩
  · obtain ⟨rfl, rfl⟩ := ok_of_run_pure hrs
    exact ⟨fun _ ↦ rfl, fun id hid ↦ (by cases hid)⟩

/-- A way to finish an application that may be used whenever the operator fits its operands. -/
structure Finishes (finish : Operator → String → List NodeId → Bool → Build NodeId) : Prop where
  grants : ∀ {op : Operator} {t : String} {args : List NodeId} {isAddress : Bool}
    {d : Draft}, d.Fits op t args isAddress →
      Grants Eq (finish op t args isAddress) d
  /-- An element that is an address is the application itself. -/
  element : ∀ {pos : Nat} {t : String} {base id : NodeId} {isAddress : Bool}
    {d d' : Draft} {n : Node}, d.Sound →
    (finish (.index pos) t [base] isAddress).run d = (.ok id, d') →
    d'.graph.node? id = some n → n.isAddress = true →
      n.kind = .expression (.index pos) [base]
  element_keepsRest : ∀ (pos : Nat) (t : String) (base : NodeId) (isAddress : Bool)
    (d : Draft),
    KeepsRest d ((finish (.index pos) t [base] isAddress).run d).2

/-- An application becomes a node only after the search for something simpler has failed. -/
theorem finishes_finish {replace : Operator → String → List NodeId → Build (Option NodeId)}
    (hrep : ∀ op t args d, (∀ arg ∈ args, d.graph.Owns arg) → Grants? (replace op t args) d)
    (hno : ∀ {op t args before d'}, (replace op t args).run before = (.ok none, d') → ∃ rest,
        (replace? (perform rest) op t args).run before = (.ok none, d'))
    (hel : ∀ {pos t base d m d'}, d.Sound → (replace (.index pos) t [base]).run d = (.ok m, d') →
        (m = none → d' = d) ∧ ∀ id, m = some id → ∃ t, d'.HoldsValue id t)
    (hkept : ∀ pos t base d, KeepsRest d ((replace (.index pos) t [base]).run d).2) :
    Finishes (finish replace) := by
  constructor
  · intro op t args isAddress d hfi
    refine .of_sound fun hs ↦ ?_
    have hev := evaluate?_grants op t args d
    have hsearch := hrep op t args d hfi.owns
    unfold finish
    refine hev.bind hs fun evaluated d' hevaluated hown ↦ ?_
    cases evaluated with
    | some id => exact grants_pure fun hor ↦ hown hor id rfl
    | none =>
      obtain rfl := draft_eq_of_run_evaluate?_none hevaluated
      refine hsearch.bind hs fun replaced last hreplaced hown ↦ ?_
      cases replaced with
      | some id => exact grants_pure fun hor ↦ hown hor id rfl
      | none =>
        obtain ⟨rest, hfailed⟩ := hno hreplaced
        have hl := hsearch.1.precedes hreplaced hs
        refine .of_owns (intern_enlarges (.expression (hfi.later hl ?_) ?_)) owns_of_run_intern
        · rintro rfl
          unfold replace? at hfailed
          cases hfailed
          rfl
        · exact ⟨rest, d', hl, hs.interned, hfi.owns, hevaluated, hfailed⟩
  · intro pos t base id isAddress d d' n hs hr hn haddr
    obtain ⟨evaluated, s, hevaluated, hrs⟩ := ok_of_run_bind hr
    obtain ⟨rfl, rfl⟩ := ok_of_run_pure hevaluated
    obtain ⟨replaced, s, hreplaced, hformed⟩ := ok_of_run_bind hrs
    obtain ⟨hno, hsome⟩ := hel hs hreplaced
    cases replaced with
    | some m =>
      obtain ⟨rfl, rfl⟩ := ok_of_run_pure hformed
      obtain ⟨_, other, ho, -, hv⟩ := hsome id rfl
      cases hn.symm.trans ho
      cases haddr.symm.trans hv
    | none =>
      obtain rfl := hno rfl
      obtain ⟨owned, rfl, rfl⟩ := ok_of_run_intern hformed
      obtain ⟨formed, hformed, -, hk⟩ := node?_intern hs.interned owned
      cases hn.symm.trans hformed
      exact hk
  · intro pos t base isAddress d
    refine moves_bind (moves_pure _ _) fun evaluated s hevaluated ↦ ?_
    obtain ⟨rfl, rfl⟩ := ok_of_run_pure hevaluated
    refine moves_bind (hkept _ _ _ _) fun replaced s _ ↦ ?_
    split
    · exact moves_pure _ _
    · exact intern_keepsRest _ _ _ _

end Applications

end Build

namespace Draft

/-- The operator takes the slot at a position of an aggregate. -/
def TakesSlot (whole : TypeDefinition) (op : Operator) (slot : Nat) (t : String) : Prop :=
  (∃ field, op = .member field ∧ whole.field? field = some (slot, t)) ∨
    op = .index slot ∧ whole.element slot = .ok t

theorem TakesSlot.fits {whole : TypeDefinition} {slot : Nat}
    {tgt : Node} (h : TakesSlot whole op slot t) (htg : d.graph.node? base = some tgt)
    (hwh : d.types.get? tgt.type = some whole) :
    d.Fits op t [base] tgt.isAddress := by
  rcases h with ⟨field, rfl, hfd⟩ | ⟨rfl, hel⟩
  · exact .member htg hwh hfd
  · exact .index htg hwh hel

end Draft

/-- The node that an operand is, unless it is a number. -/
def Operand.node? : Operand → Option NodeId
  | .node id => some id
  | .float _ | .int _ => none

/-- What is done with an application. -/
abbrev Finish := Operator → String → List NodeId → Bool → Build NodeId

/-- An application that was asked for and is about to be evaluated, replaced or formed. -/
structure Application where
  operator : Operator
  type : String
  operands : List NodeId
  isAddress : Bool

namespace Build

section Requests

/-- The construction fails, or it comes to an application of some shape that fits. Its operands are
given or values. The condition is kept until then. -/
inductive Comes (cond : Draft → Prop) (failing : Error → Draft → Prop) (given : List NodeId)
    (shape : Application → Prop) (d : Draft) (construction : Finish → Build NodeId) : Prop
  | fails {error : Error} {d' : Draft} (hfl : failing error d')
      (hr : ∀ finish, (construction finish).run d = (.error error, d'))
  | applies (w : Application) {reached : Draft} (hreached : cond reached)
      (hsh : shape w)
      (hfi : d.Sound → d.Precedes reached ∧
        reached.Fits w.operator w.type w.operands w.isAddress ∧
        ∀ arg ∈ w.operands, arg ∈ given ∨ ∃ t, reached.HoldsValue arg t)
      (hr : ∀ finish, (construction finish).run d =
        (finish w.operator w.type w.operands w.isAddress).run reached)

section Coming

variable {cond : Draft → Prop} {failing : Error → Draft → Prop} {given : List NodeId}
  {shape : Application → Prop} {β : Type}

theorem Comes.imp {weaker : Application → Prop} {construction : Finish → Build NodeId}
    (h : Comes cond failing given shape d construction) (himp : ∀ w, shape w → weaker w) :
    Comes cond failing given weaker d construction := by
  cases h with
  | fails hfl hr => exact .fails hfl hr
  | applies w hreached hsh hfi hr =>
    exact .applies w hreached (himp w hsh) hfi hr

/-- The condition is kept if it is kept where the application is finished. -/
theorem Comes.keepsAt {construction : Finish → Build NodeId} {finish : Finish}
    (h : Comes cond failing given shape draft construction)
    (hfin : ∀ w reached, cond reached → shape w → KeepsAt cond failing
      (finish w.operator w.type w.operands w.isAddress) reached) :
    KeepsAt cond failing (construction finish) draft := by
  cases h with
  | fails hfl hr =>
    unfold KeepsAt
    rw [hr]
    exact ⟨fun _ _ h ↦ (by cases h), fun _ _ h ↦ (by cases h; exact hfl)⟩
  | applies w hreached hsh hfi hr =>
    unfold KeepsAt
    rw [hr]
    exact hfin w _ hreached hsh

/-- What is done before an application may yield values that it is given later. -/
theorem Comes.bind_given {x : Build β} {later : β → List NodeId}
    {construction : Finish → β → Build NodeId} (hx : KeepsAt cond failing x d)
    (hld : Enlarges d (x.run d).2) (hgiven : ∀ b s, x.run d = (.ok b, s) → d.Sound →
      ∀ id ∈ later b, id ∈ given ∨ ∃ t, s.HoldsValue id t)
    (hnx : ∀ b s, x.run d = (.ok b, s) → cond s →
      Comes cond failing (later b) shape s (construction · b)) :
    Comes cond failing given shape d fun finish ↦ x >>= construction finish := by
  rcases hr : x.run d with ⟨error | b, s⟩
  · exact .fails (hx.2 hr) fun finish ↦ run_bind_of_error hr
  · cases hnx b s hr (hx.1 hr) with
    | fails hfl hfailed =>
      exact .fails hfl fun finish ↦ (run_bind_of_ok hr).trans (hfailed finish)
    | applies w hreached hsh hfi happlied =>
      refine .applies w hreached hsh (fun hs ↦ ?_) fun finish ↦
        (run_bind_of_ok hr).trans (happlied finish)
      obtain ⟨hl, hfi, hops⟩ := hfi (hld.sound hr hs)
      refine ⟨(hld.precedes hr hs).trans hl, hfi, fun arg hop ↦ ?_⟩
      rcases hops arg hop with hid | hv
      · exact (hgiven b s hr hs arg hid).imp_right fun hv ↦ hv.imp fun _ hv ↦ hv.later hl
      · exact .inr hv

theorem Comes.bind {x : Build β} {construction : Finish → β → Build NodeId}
    (hx : KeepsAt cond failing x d) (hld : Enlarges d (x.run d).2)
    (hnx : ∀ b s, x.run d = (.ok b, s) → cond s →
      Comes cond failing given shape s (construction · b)) :
    Comes cond failing given shape d fun finish ↦ x >>= construction finish :=
  .bind_given hx hld (fun _ _ _ _ _ hid ↦ .inl hid) hnx

end Coming

/-- Questions, single nodes that are not expressions and extensions of types keep the condition. -/
structure Preparing (cond : Draft → Prop) (failing : Error → Draft → Prop) : Prop
    extends Forming cond failing where
  types : ∀ ⦃d : Draft⦄ ⦃name field : String⦄ ⦃m : Nat × String⦄ ⦃types : TypeTable⦄,
    cond d → d.types.member name field = .ok (m, types) →
      cond { d with types }

theorem preparing_enlarges (d : Draft) : Preparing d.Enlarges fun _ ↦ d.Enlarges where
  toForming := forming_enlarges d
  types _ _ _ _ _ h hm := IsTrans.trans _ _ _ h (.types hm)

/-- The request for the slot of a node that an operator selects. -/
inductive SlotRequest : Operator → NodeId → Request → Prop
  | member (base : NodeId) (field : String) : SlotRequest (.member field) base (.member base field)
  | index (base : NodeId) (pos : Nat) :
      SlotRequest (.index pos) base (.index base pos)

/-- A slot is asked for at the node, and in its type as it is or with the field added. -/
theorem slot_cases {request : Request} (hreq : SlotRequest op base request) (d : Draft) :
    (∃ error : Error, error.Basic ∧
      ∀ finish, (performWith finish request).run d = (.error error, d)) ∨
    ∃ types target whole slot type, d.graph.node? base = some target ∧
      types.get? target.type = some whole ∧ TakesSlot whole op slot type ∧
      (types = d.types ∨ ∃ field found, op = .member field ∧
        d.types.member target.type field = .ok (found, types)) ∧
      ∀ finish : Finish, (performWith finish request).run d =
        (finish op type [base] target.isAddress).run { d with types } := by
  cases hn : d.graph.node? base with
  | none =>
    have hfor : ¬d.graph.Owns base := fun how ↦ by
      obtain ⟨node, hf⟩ := owns_iff_node?.mp how
      cases hn.symm.trans hf
    have hchecked : (checkOwned base).run d = (.error (.foreignNode base.index), d) := by
      rw [checkOwned, run_query, if_neg hfor]
    refine .inl ⟨.foreignNode base.index, trivial, fun finish ↦ ?_⟩
    cases hreq <;> exact run_bind_of_error hchecked
  | some target =>
    have hchecked := run_checkOwned_of_owns (owns_of_node? hn)
    cases hreq with
    | member _ field =>
      have hr (finish : Finish) : (performWith finish (.member base field)).run d = _ :=
        (run_bind_of_ok hchecked).trans ((run_bind_of_ok (run_node_of_some hn)).trans run_get_bind)
      simp only [hr]
      cases hm : d.types.member target.type field with
      | error error => exact .inl ⟨.typing error, trivial, fun finish ↦ rfl⟩
      | ok found =>
        obtain ⟨⟨slot, type⟩, types⟩ := found
        obtain ⟨whole, hwh, hfd⟩ := field?_member hm
        exact .inr ⟨types, target, whole, slot, type, rfl, hwh, .inl ⟨field, rfl, hfd⟩,
          .inr ⟨field, _, rfl, hm⟩, fun finish ↦ rfl⟩
    | index _ pos =>
      have hr (finish : Finish) : (performWith finish (.index base pos)).run d = _ :=
        (run_bind_of_ok hchecked).trans ((run_bind_of_ok (run_node_of_some hn)).trans run_get_bind)
      simp only [hr]
      cases hel : d.types.element target.type pos with
      | error error => exact .inl ⟨.typing error, trivial, fun finish ↦ rfl⟩
      | ok type =>
        obtain ⟨whole, hwh, htk⟩ := ok_of_element hel
        exact .inr ⟨d.types, target, whole, pos, type, rfl, hwh, .inr ⟨rfl, htk⟩,
          .inl rfl, fun finish ↦ rfl⟩

theorem ok_of_run_resultType {op : String} {res : ResultType}
    (h : (resultType op ts res).run draft = (.ok t, d')) :
    draft.HasResult ts t res ∧ d' = draft := by
  unfold resultType at h
  split at h
  next name =>
    obtain ⟨defn, s, hlk, hret⟩ := ok_of_run_bind h
    obtain ⟨hdef, rfl⟩ := ok_of_run_lookupType hlk
    obtain ⟨rfl, rfl⟩ := ok_of_run_pure hret
    exact ⟨⟨(get?_name hdef).symm, by rw [hdef]; rfl⟩, rfl⟩
  next position =>
    split at h
    next found hf =>
      obtain ⟨rfl, rfl⟩ := ok_of_run_pure h
      exact ⟨hf, rfl⟩
    · cases h

/-- Operands are converted one after another. -/
theorem given_or_value_of_run_mapM {convert : Operand → Build NodeId} {args : List Operand}
    (hld : ∀ arg d, Enlarges d ((convert arg).run d).2)
    (hconvert : ∀ {arg d id d'}, d.Sound → (convert arg).run d = (.ok id, d') →
        arg.node? = some id ∨ ∃ type, d'.HoldsValue id type)
    (hsound : d.Sound) (h : (args.mapM convert).run d = (.ok ids, d')) :
    ∀ id ∈ ids, id ∈ args.filterMap Operand.node? ∨ ∃ type, d'.HoldsValue id type := by
  induction args generalizing d ids with
  | nil =>
    obtain ⟨rfl, rfl⟩ := ok_of_run_pure h
    exact forall_mem_nil _
  | cons arg args ih =>
    obtain ⟨first, rest, s, hfst, hrs, rfl⟩ := ok_of_run_mapM_cons h
    have hs := (hld arg d).sound hfst hsound
    have hl := (moves_mapM (fun arg _ ↦ hld arg) s : Enlarges _ _).precedes hrs hs
    refine forall_mem_cons.mpr ⟨?_, fun id hid ↦ ?_⟩
    · refine (hconvert hsound hfst).imp (fun hn ↦ ?_) fun hv ↦ hv.imp fun _ hv ↦ hv.later hl
      exact mem_filterMap.mpr ⟨arg, mem_cons_self, hn⟩
    · refine (ih hs hrs id hid).imp_left fun hgiven ↦ ?_
      obtain ⟨other, ho, hn⟩ := mem_filterMap.mp hgiven
      exact mem_filterMap.mpr ⟨other, mem_cons_of_mem _ ho, hn⟩

/-- Numbers become constants. -/
theorem given_or_value_of_run_coerce {args : List Operand}
    (hsound : d.Sound) (h : (coerce args).run d = (.ok ids, d')) :
    ∀ id ∈ ids, id ∈ args.filterMap Operand.node? ∨ ∃ type, d'.HoldsValue id type := by
  obtain ⟨floatType, s, hfloat, hrs⟩ := ok_of_run_bind h
  have hs := ((forming_enlarges d).floatTypeAmong args).moves.sound hfloat hsound
  refine given_or_value_of_run_mapM (fun arg d ↦ ?_) (fun {arg _ _ _} hsound hr ↦ ?_) hs hrs
  · cases arg with
    | node id => exact moves_pure id d
    | float | int => exact constant_enlarges _ _ d
  · cases arg with
    | node id =>
      obtain ⟨rfl, -⟩ := ok_of_run_pure hr
      exact .inl rfl
    | float | int =>
      obtain ⟨_, node, -, hn, ht, -, hv⟩ := ok_of_run_constant hsound hr
      exact .inr ⟨_, node, hn, ht, hv⟩

namespace Preparing

variable {cond : Draft → Prop} {failing : Error → Draft → Prop}
  (h : Preparing cond failing)

include h

theorem slot {request : Request} (hreq : SlotRequest op base request) (hd : cond d) :
    Comes cond failing [base]
      (fun wanted ↦ wanted.operator = op ∧ wanted.operands = [base]) d
      (performWith · request) := by
  rcases slot_cases hreq d with ⟨error, hbs, hr⟩ |
    ⟨types, target, whole, slot, type, htg, hwh, htk, hts, hr⟩
  · exact .fails (h.allows hbs hd) hr
  · have hstep : d.Precedes { d with types } ∧ cond { d with types } := by
      rcases hts with rfl | ⟨field, found, -, hm⟩
      · exact ⟨.refl d, hd⟩
      · exact ⟨(Step.types hm).precedes, h.types hd hm⟩
    refine .applies ⟨op, type, [base], target.isAddress⟩ hstep.2 ⟨rfl, rfl⟩
      (fun _ ↦ ⟨hstep.1, htk.fits htg hwh, fun arg hop ↦ .inl hop⟩) hr

/-- Operands are taken as values before an operator is applied to them. -/
theorem values
    {shape : Application → Prop}
    (hsh : ∀ {values}, values.length = ids.length → shape ⟨op, t, values, false⟩)
    (hd : cond d) (hts : Forall₂ d.HasType ids ts)
    (hfi : ∀ {values last}, d.Sound → d.Precedes last → last.types = d.types →
      Forall₂ last.HoldsValue values ts → last.Fits op t values false) :
    Comes cond failing given shape d fun finish ↦
      ids.mapM valueOf >>= fun values ↦ finish op t values false := by
  have hkeeps : Keeps cond failing (ids.mapM valueOf) := .mapM h.valueOf
  rcases hr : (ids.mapM valueOf).run d with ⟨error | values, last⟩
  · exact .fails ((hkeeps hd).2 hr) fun finish ↦ run_bind_of_error hr
  · refine .applies ⟨op, t, values, false⟩ ((hkeeps hd).1 hr)
      (hsh (length_of_run_mapM hr)) (fun hs ↦ ?_) fun finish ↦ run_bind_of_ok hr
    have hla : d.Precedes last :=
      (moves_mapM (fun id _ ↦ valueOf_enlarges id) d : Enlarges _ _).precedes hr hs
    have hkept : last.types = d.types :=
      ((moves_mapM (fun id _ ↦ valueOf_keepsRest id) d : KeepsRest _ _).of_run hr).types
    have hholds := holdsValue_of_run_mapM_valueOf hs hts hr
    refine ⟨hla, hfi hs hla hkept hholds, fun v hv ↦ .inr ?_⟩
    obtain ⟨pos, hpos, rfl⟩ := mem_iff_getElem.mp hv
    exact ⟨_, hholds.get hpos (hholds.length_eq ▸ hpos)⟩

theorem construct (given : List NodeId) (t : String) (arguments : List NodeId) (hd : cond d) :
    Comes cond failing given
      (fun w ↦ w.operator = .construct ∧ w.operands.length = arguments.length) d
      (constructWith · t arguments) := by
  refine .bind (Keeps.forM (fun id _ ↦ h.allows.checkOwned id) hd)
    (moves_forM (fun _ _ ↦ moves_query _) d) fun _ s hchecked hs ↦ ?_
  obtain ⟨howd, rfl⟩ := ok_of_run_forM_checkOwned hchecked
  refine .bind (h.allows.lookupType t hs) (moves_query _ _) fun defn s' hlk hs ↦ ?_
  obtain ⟨hdef, rfl⟩ := ok_of_run_lookupType hlk
  dsimp only
  split
  · exact .fails (h.allows (by trivial) hs) fun finish ↦ rfl
  next harity =>
    obtain ⟨ts, hts⟩ := exists_types howd
    refine h.values (⟨rfl, ·⟩) hs hts fun {values last} _ _ hkept hholds ↦ ?_
    have hlen : values.length = arguments.length := hholds.length_eq.trans hts.length_eq.symm
    refine .construct (by rwa [hkept]) ?_ fun v hv ↦ ?_
    · rw [hlen]
      exact Decidable.not_not.mp harity
    · obtain ⟨pos, hpos, rfl⟩ := mem_iff_getElem.mp hv
      exact ⟨_, hholds.get hpos (hholds.length_eq ▸ hpos)⟩

theorem resultType (op : String) (ts : List String) (res : ResultType) :
    Keeps cond failing (Build.resultType op ts res) := by
  unfold Build.resultType
  split
  · exact (h.allows.lookupType _).bind fun _ ↦ keeps_pure _
  · split
    · exact keeps_pure _
    · exact h.allows.fails trivial

theorem single {shape : Application → Prop} {construction : Finish → NodeId → Build NodeId}
    (hd : cond d)
    (hnx : ∀ base, ids = [base] → Comes cond failing ids shape d (construction · base)) :
    Comes cond failing ids shape d fun finish ↦ Build.single name ids >>= construction finish := by
  unfold Build.single
  split
  next base => exact hnx base rfl
  next => exact .fails (h.allows (by trivial) hd) fun finish ↦ rfl

theorem apply (op : String) (args : List Operand) (hd : cond d) :
    Comes cond failing (args.filterMap Operand.node?)
      (fun w ↦ w.operands.length = args.length ∧
        (applyWith.projection? op = none → w.operator.isProjection = false)) d
      (applyWith · op args) := by
  refine .bind_given (h.coerce args hd) (coerce_enlarges _ _)
    (fun ids s hr hsound ↦ given_or_value_of_run_coerce hsound hr) fun ids s hcoerced hs ↦ ?_
  have hcount : ids.length = args.length := by
    obtain ⟨_, _, -, hids⟩ := ok_of_run_bind hcoerced
    exact length_of_run_mapM hids
  rw [← hcount]
  split
  next field hnm =>
    refine h.single hs fun base hids ↦ ?_
    subst hids
    exact (h.slot (.member base field) hs).imp fun w hsh ↦
      ⟨congrArg length hsh.2, fun hno ↦ by cases hnm.symm.trans hno⟩
  next position hnm =>
    refine h.single hs fun base hids ↦ ?_
    subst hids
    exact (h.slot (.index base position) hs).imp fun w hsh ↦
      ⟨congrArg length hsh.2, fun hno ↦ by cases hnm.symm.trans hno⟩
  next hnm =>
    refine .bind (Keeps.mapM h.allows.typeOf hs) (moves_mapM (fun id _ ↦ moves_typeOf id) s)
      fun ts s' hts hs ↦ ?_
    obtain ⟨hhave, rfl⟩ := ok_of_run_mapM_typeOf hts
    refine .bind (keeps_get (fun _ _ ↦ keeps_pure _) hs) (refl s') fun m s hg hs ↦ ?_
    obtain ⟨rfl, rfl⟩ := ok_of_run_get hg
    split
    next position overload hrv =>
      refine .bind (h.resultType _ _ _ hs) (preparing_enlarges _ |>.resultType _ _ _).moves
        fun t s ht hs ↦ ?_
      obtain ⟨hres, rfl⟩ := ok_of_run_resultType ht
      exact h.values (⟨·, fun _ ↦ rfl⟩) hs hhave fun _ hla _ hholds ↦
        .registered hnm (hla.operators ▸ hrv) (hres.extends hla.types) hholds
    next =>
      refine .bind (keeps_get (fun _ _ ↦ keeps_pure _) hs) (refl s) fun m s' hg hs ↦ ?_
      obtain ⟨rfl, rfl⟩ := ok_of_run_get hg
      split
      · exact (h.construct _ _ _ hs).imp fun w hsh ↦
          ⟨hsh.2, fun _ ↦ congrArg Operator.isProjection hsh.1⟩
      · exact .fails (h.allows (by trivial) hs) fun finish ↦ rfl

end Preparing

variable {finish : Operator → String → List NodeId → Bool → Build NodeId}

theorem Comes.grants {shape : Application → Prop} {construction : Finish → Build NodeId}
    (h : Comes draft.Enlarges (fun _ ↦ draft.Enlarges) given shape draft construction)
    (hfin : Finishes finish) : Grants Eq (construction finish) draft := by
  refine .of_sound fun hs ↦ ?_
  cases h with
  | fails hfl hr => exact .of_run hfl (hr finish) (grants_throw _ _)
  | applies _ hreached _ hfi hr =>
    exact .of_run hreached (hr finish) (hfin.grants (hfi hs).2.1)

theorem indexWith_grants (hfin : Finishes finish) (base : NodeId) (pos : Nat)
    (draft : Draft) : Grants Eq (indexWith finish base pos) draft :=
  ((preparing_enlarges draft).slot (.index base pos) (refl draft)).grants hfin

/-- The element is finished in the draft as it is. -/
theorem run_indexWith (base : NodeId) (pos : Nat) (draft : Draft) :
    (∃ error, ∀ finish, (indexWith finish base pos).run draft = (.error error, draft)) ∨
    ∃ t isAddress, ∀ finish, (indexWith finish base pos).run draft =
      (finish (.index pos) t [base] isAddress).run draft := by
  rcases slot_cases (.index base pos) draft with ⟨error, -, hr⟩ |
    ⟨types, target, whole, slot, t, -, -, -, hts, hr⟩
  · exact .inl ⟨error, hr⟩
  · rcases hts with rfl | ⟨_, _, hm, -⟩
    · exact .inr ⟨t, target.isAddress, hr⟩
    · cases hm

section

variable (hfin : Finishes finish)

include hfin

theorem indexWith_keepsRest (base : NodeId) (pos : Nat)
    (d : Draft) : KeepsRest d ((indexWith finish base pos).run d).2 := by
  rcases run_indexWith base pos d with ⟨error, hr⟩ | ⟨t, isAddress, hr⟩
  · rw [hr]
    exact refl d
  · rw [hr]
    exact hfin.element_keepsRest _ _ _ _ _

/-- An element that is an address is formed as it was asked for. -/
theorem kind_of_run_indexWith
    {n : Node} (hs : d.Sound) (h : (indexWith finish base pos).run d = (.ok id, d'))
    (hn : d'.graph.node? id = some n) (haddr : n.isAddress = true) :
    n.kind = .expression (.index pos) [base] := by
  rcases run_indexWith base pos d with ⟨error, hr⟩ | ⟨t, isAddress, hr⟩
  · cases (hr finish).symm.trans h
  · exact hfin.element hs ((hr finish).symm.trans h) hn haddr

/-- An element is counted when it was written. -/
theorem ok_of_run_write_element {element : NodeId} {middle : Draft} (hs : d.Sound)
    (hix : (indexWith finish addr pos).run d = (.ok element, middle))
    (hw : (write element v).run middle = (.ok id, d')) :
    d'.WritesElement id addr pos ∧ d'.elementsWritten = d.elementsWritten := by
  have hmid := (indexWith_grants hfin _ _ _).1.sound hix hs
  obtain ⟨tgt, n, src, htg, haddr, hn, hk, -, hcounted⟩ := ok_of_run_write_any hmid hw
  have hel := kind_of_run_indexWith hfin hs hix htg haddr
  have hkept := (indexWith_keepsRest hfin _ _ _).of_run hix
  have hl := (write_leads _ _ _).precedes hw hmid
  exact ⟨⟨element, tgt, n, src, hl.graph.node? htg, hel, hn, hk⟩,
    hcounted.trans hkept.elementsWritten⟩

theorem writeNextWith_leads (addr : NodeId) (v : Operand)
    (d : Draft) : Leads d ((writeNextWith finish addr v).run d).2 := by
  refine .of_sound fun hs ↦ ?_
  refine moves_bind (Leads.refl d) fun _ s hg ↦ ?_
  obtain ⟨rfl, rfl⟩ := ok_of_run_get hg
  refine moves_bind (indexWith_grants hfin _ _ _).1.leads fun element middle hix ↦ ?_
  refine moves_bind (write_leads _ _ _) fun id last hw ↦ ?_
  obtain ⟨hws, hcounted⟩ := ok_of_run_write_element hfin hs hix hw
  rw [← hcounted] at hws ⊢
  exact moves_bind (.of_step (.elementsWritten hws)) fun _ _ _ ↦ moves_pure _ _

theorem serves_performWith : Serves (performWith finish) := by
  intro q d hs
  have hprepare := preparing_enlarges d
  have hbuilt {x : Build NodeId} (h : Grants Eq x d) : Steps d (x.run d).2 ∧
        (q.Builds → d.Retains (x.run d).2) ∧
        (d.operators.HandsOn → ∀ id d', x.run d = (.ok id, d') → d'.graph.Owns id) :=
    ⟨(h.1 hs).1, fun _ ↦ (h.1 hs).2, fun hhandsOn _ _ ↦ h.owns ⟨hs, hhandsOn⟩⟩
  cases q with
  | apply op args => exact hbuilt ((hprepare.apply op args (refl _)).grants hfin)
  | member base field => exact hbuilt ((hprepare.slot (.member base field) (refl _)).grants hfin)
  | index base pos => exact hbuilt (indexWith_grants hfin _ _ _)
  | construct t arguments =>
    exact hbuilt ((hprepare.construct [] t arguments (refl _)).grants hfin)
  | read addr => exact hbuilt (read_grants _ _)
  | constant t v => exact hbuilt (constant_grants _ _ _)
  | one t => exact hbuilt (.of_owns (hprepare.one t).moves owns_of_run_one)
  | declare name t dir =>
    exact ⟨declare_leads _ _ _ _ hs, False.elim, fun _ _ _ ↦ owns_of_run_declare hs⟩
  | write addr v =>
    exact ⟨write_leads _ _ _ hs, False.elim, fun _ _ _ ↦ owns_of_run_write hs⟩
  | writeNext addr v =>
    refine ⟨writeNextWith_leads hfin _ _ _ hs, False.elim, fun _ id d' hr ↦ ?_⟩
    obtain ⟨_, s, hg, hrs⟩ := ok_of_run_bind hr
    obtain ⟨-, rfl⟩ := ok_of_run_get hg
    obtain ⟨element, s, hel, hwritten⟩ := ok_of_run_bind hrs
    obtain ⟨m, s', hw, hmodify⟩ := ok_of_run_bind hwritten
    have how := owns_of_run_write ((indexWith_grants hfin _ _ _).1.sound hel hs) hw
    cases hmodify
    exact how

end

end Requests

/-- The search for a replacement with a number of nested replacements still allowed. -/
def replaceWithin : Nat → Operator → String → List NodeId → Build (Option NodeId)
  | 0 => fun op _ _ ↦ do
    throw (.replacementLimit op.name (← get).options.replacementLimit)
  | remaining + 1 => replace? (perform remaining)

theorem perform_eq (rest : Nat) : perform rest = performWith (finish (replaceWithin rest)) := by
  cases rest <;> rfl

/-- Requests are finished however many replacements are left. -/
theorem finishes_replaceWithin (rest : Nat) : Finishes (finish (replaceWithin rest)) := by
  induction rest with
  | zero =>
    refine finishes_finish (fun _ _ _ _ _ ↦ ?_) (fun h ↦ ?_) (fun _ h ↦ ?_) fun _ _ _ _ ↦ ?_
    · exact grants_bind (refl _) fun _ _ _ ↦ grants_throw _ _
    · cases h
    · cases h
    · exact moves_bind (refl _) fun _ _ _ ↦ moves_throw _ _
  | succ rest hfin =>
    have hserves : Serves (perform rest) := perform_eq rest ▸ serves_performWith hfin
    refine finishes_finish (replace?_grants hserves) (fun h ↦ ⟨rest, h⟩)
      (fun hs h ↦ ok_of_run_project hserves hs h) fun pos t base d ↦ ?_
    refine project_keepsRest (fun id d ↦ ?_) t base pos d
    rw [perform_eq]
    exact indexWith_keepsRest hfin id pos d

/-- Requests change a draft by elementary changes only, however many replacements they need. -/
theorem serves_perform (rest : Nat) : Serves (perform rest) :=
  perform_eq rest ▸ serves_performWith (finishes_replaceWithin rest)

theorem perform_leads (rest : Nat) (q : Request) (d : Draft) : Leads d ((perform rest q).run d).2 :=
  (serves_perform rest).leads q d

theorem request_leads (wanted : Request) (d : Draft) : Leads d ((request wanted).run d).2 :=
  moves_bind (Leads.refl d) fun _ _ _ ↦ perform_leads _ _ _

theorem serves_request : Serves request := fun w d ↦ serves_perform d.options.replacementLimit w d

theorem carryOut_leads (plan : Plan α) (d : Draft) : Leads d ((carryOut plan).run d).2 :=
  Plan.run_leads request_leads plan d

theorem rebuild_grants (op : Operator) (t : String) (args : List NodeId)
    (draft : Draft) : Grants Eq (rebuild op t args) draft := by
  unfold rebuild
  split
  · exact serves_request.grants (by trivial) _
  · exact serves_request.grants (by trivial) _
  · exact serves_request.grants (by trivial) _
  · exact serves_request.grants (by trivial) _
  · exact grants_throw _ _
  · exact grants_throw _ _

end Build

end DiffGraph
