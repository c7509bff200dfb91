import DiffGraph.Proofs.Draft.Calculus
import DiffGraph.Proofs.Draft.Integers
import DiffGraph.Proofs.Operator.GradientRules

/-!
Building with well-typed values. A node is proper if its type and the types of all it is built from
are made of numbers, and constructors below it take operands of the types of their slots. In a draft
with the standard operators, where two nested replacements are allowed, nothing that is built of
proper values fails: operators on numbers, slots of values and of addresses, constructors and
conversions, and the rules for gradients come to proper values of the types that are expected.
-/

set_option autoImplicit false

namespace DiffGraph

open List Stateful TypeDefinition TypeTable Registry Option Build

variable {d draft : Draft} {n node : Node} {t type : String} {id : NodeId}
  {defn definition : TypeDefinition} {path : AccessPath} {k : List NodeId} {kind : NodeKind}

namespace Draft

/-- The type of the node is made of numbers, and as a constructor it takes operands of the types of
its slots. -/
structure WellTyped (d : Draft) (node : Node) : Prop where
  numeric : d.types.Numeric node.type
  slots : ∀ ⦃args : List NodeId⦄ ⦃defn : TypeDefinition⦄
    ⦃parts : List (Operator × String)⦄, node.kind = .expression .construct args →
    d.types.get? node.type = some defn → defn.parts? = some parts →
      Forall₂ d.HasType args (parts.map Prod.snd)

/-- The node and all that it is built from are well typed. -/
inductive Proper (d : Draft) : NodeId → Prop
  | intro {id : NodeId} {n : Node} (hn : d.graph.node? id = some n)
      (hty : d.WellTyped n)
      (hops : ∀ arg ∈ n.operands, Proper d arg) : Proper d id

/-- A proper value of the type. -/
structure Typed (d : Draft) (id : NodeId) (t : String) : Prop where
  proper : d.Proper id
  holds : d.HoldsValue id t

/-- The draft has the standard operators, and as many replacements may nest as they need. -/
structure Equipped (d : Draft) : Prop where
  sound : d.Sound
  operators : d.operators = .standard
  types : d.types.Grown
  limit : 2 ≤ d.options.replacementLimit

section Typing

variable {newer : Draft}

theorem Equipped.later (h : d.Equipped) (hl : d.Precedes newer) (hs : newer.Sound) :
    newer.Equipped where
  sound := hs
  operators := hl.operators.trans h.operators
  types := h.types.extends hl.types
  limit := hl.options ▸ h.limit

/-- With all replacements that are allowed, two can nest. -/
theorem Equipped.exists_limit (h : d.Equipped) : ∃ rest, d.options.replacementLimit = rest + 2 :=
  ⟨_, (Nat.sub_add_cancel h.limit).symm⟩

theorem WellTyped.later (h : d.WellTyped n) (hl : d.Precedes newer) : newer.WellTyped n where
  numeric := h.numeric.extends hl.types
  slots operands definition parts hk hg hps := by
    have hsome : (d.types.get? n.type).isSome = true := by
      rw [← hl.types.isSome_get?, hg]
      rfl
    obtain ⟨older, holder⟩ := isSome_iff_exists.mp hsome
    obtain ⟨wider, hwd, hwn⟩ := hl.types.get? holder
    cases hg.symm.trans hwd
    exact (h.slots hk holder (hwn.parts?.symm.trans hps)).imp fun _ _ ht ↦ ht.later hl

theorem Proper.later (h : d.Proper id) (hl : d.Precedes newer) : newer.Proper id := by
  induction h with
  | intro hn hty _ ih => exact .intro (hl.graph.node? hn) (hty.later hl) ih

theorem Typed.later (h : d.Typed id type) (hl : d.Precedes newer) : newer.Typed id type :=
  ⟨h.proper.later hl, h.holds.later hl⟩

theorem Typed.owns (h : d.Typed id t) : d.graph.Owns id := h.holds.owns

theorem Typed.hasType (h : d.Typed id type) : d.HasType id type := by
  obtain ⟨n, hn, ht, -⟩ := h.holds
  exact ⟨n, hn, ht⟩

theorem proper_of_typed {ids : List NodeId} {ts : List String}
    (h : Forall₂ d.Typed ids ts) : ∀ id ∈ ids, d.Proper id := by
  induction h with
  | nil => exact forall_mem_nil _
  | cons hhd _ ih => exact forall_mem_cons.mpr ⟨hhd.proper, ih⟩

theorem Proper.exists_node (h : d.Proper id) :
    ∃ node, d.graph.node? id = some node ∧ d.WellTyped node := by
  cases h with
  | intro hn hty => exact ⟨_, hn, hty⟩

theorem Proper.wellTyped (h : d.Proper id) (hn : d.graph.node? id = some node) :
    d.WellTyped node := by
  cases h with
  | intro hf hty =>
    cases hn.symm.trans hf
    exact hty

theorem Proper.operand (h : d.Proper id) (hn : d.graph.node? id = some n)
    {operand : NodeId} (hop : operand ∈ n.operands) : d.Proper operand := by
  cases h with
  | intro hf _ hops =>
    cases hn.symm.trans hf
    exact hops operand hop

theorem Proper.operands (h : d.Proper id) (hn : d.graph.node? id = some n) (hk : n.kind = kind) :
    ∀ operand ∈ kind.operands, d.Proper operand := by
  subst hk
  exact fun _ hop ↦ h.operand hn hop

theorem Typed.numeric (h : d.Typed id type) : d.types.Numeric type := by
  obtain ⟨n, hn, rfl, -⟩ := h.holds
  exact (h.proper.wellTyped hn).numeric

/-- Only constructors have to look at the types of their operands. -/
theorem Proper.of_kind (hn : d.graph.node? id = some n) (hnum : d.types.Numeric n.type)
    (hk : n.kind = kind) (ho : ∀ args, kind ≠ .expression .construct args)
    (hops : ∀ arg ∈ kind.operands, d.Proper arg) : d.Proper id := by
  subst hk
  exact .intro hn ⟨hnum, fun args _ _ h ↦ absurd h (ho args)⟩ hops

theorem StoresConstant.typed {v : Value} (h : d.StoresConstant id type v)
    (hnum : d.types.Numeric type) : d.Typed id type := by
  obtain ⟨n, hn, rfl, hk, haddr⟩ := h
  refine ⟨.of_kind hn hnum hk (fun _ h ↦ by cases h) ?_, n, hn, rfl, haddr⟩
  exact forall_mem_nil _

end Typing

section Numbers

variable {name : String} {ids : List NodeId}

theorem Equipped.supports (h : d.Equipped) {precision : Precision}
    (hpc : precision = .double ∨ precision = .single) : d.Supports precision := by
  refine ⟨h.operators, hpc, ?_⟩
  have hnb : precision.type ∈ TypeTable.numbers ∧ precision.type ≠ "int" := by
    rcases hpc with rfl | rfl <;> decide
  obtain ⟨defn, kind, hg, hsh, -, hfloat⟩ := h.types.number hnb.1
  exact ⟨defn, kind, hg, hsh, hfloat hnb.2⟩

theorem Equipped.calculates (h : d.Equipped) (hnb : type ∈ TypeTable.numbers) :
    d.Calculates type := by
  simp only [TypeTable.numbers, mem_cons, not_mem_nil, or_false] at hnb
  rcases hnb with rfl | rfl | rfl
  · exact (h.supports (.inl rfl)).calculates
  · exact (h.supports (.inr rfl)).calculates
  · have hint : TypeTable.scalars.get? "int" = some ⟨"int", .scalar .integer⟩ := rfl
    exact Counts.calculates ⟨h.operators, _, h.types.scalar hint, rfl⟩

/-- A registered operator takes numbers of the type of its result, and has a rule for gradients that
passes on such numbers. -/
theorem Equipped.registered (h : d.Equipped) (hn : d.graph.node? id = some n)
    {pos : Nat} (hk : n.kind = .expression (.registered name pos) ids) :
    ∃ ov, d.operators.overload? name pos = some ov ∧
      Registry.standard.resolve name (ids.map fun _ ↦ n.type) = some (pos, ov) ∧
      n.type ∈ TypeTable.numbers ∧ ov.PassesNumbers n.type ∧
        ∀ arg ∈ ids, d.HoldsValue arg n.type := by
  obtain ⟨ov, ts, hrv, hres, hvs⟩ := h.sound.registered hn hk
  obtain ⟨hov, hacc⟩ := overload?_of_resolve hrv
  rw [h.operators] at hrv
  obtain ⟨number, hnb, hnd, hreplaces, hpass⟩ := standard_passesNumbers (mem_of_resolve hrv).1
  rw [hnd] at hres
  obtain ⟨rfl, -⟩ := hres
  have hops : ts = ids.map (fun _ ↦ n.type) ∧ ∀ arg ∈ ids, d.HoldsValue arg n.type := by
    rcases hreplaces.eq_of_accepts hacc with rfl | rfl
    · obtain - | ⟨ha, hno⟩ := hvs
      cases hno
      exact ⟨rfl, forall_mem_singleton.mpr ha⟩
    · obtain - | ⟨ha, - | ⟨hb, hno⟩⟩ := hvs
      cases hno
      exact ⟨rfl, forall_mem_cons.mpr ⟨ha, forall_mem_singleton.mpr hb⟩⟩
  exact ⟨ov, hov, hops.1 ▸ hrv, hnb, hpass, hops.2⟩

/-- What stands for an application to proper numbers is a proper number. -/
theorem Simplifies.typed (h : d.Simplifies type name ids id) (hequipped : d.Equipped)
    (hnum : d.types.Numeric type) (hids : ∀ arg ∈ ids, d.Typed arg type) :
    d.Typed id type := by
  refine h.inherits (fun hst ↦ hst.typed hnum)
    (fun hn ht haddr hk hids ↦ ?_) (fun _ _ inner _ _ hn hk hty ↦ ?_) hids
  · refine ⟨.of_kind hn (ht ▸ hnum) hk (fun _ h ↦ by cases h) ?_, _, hn, ht, haddr⟩
    exact fun arg hop ↦ (hids arg hop).proper
  · obtain ⟨hpro, m, hf, rfl, -⟩ := hty
    cases hn.symm.trans hf
    obtain ⟨_, -, -, -, -, hinner⟩ := hequipped.registered hn hk
    exact ⟨hpro.operands hn hk inner mem_cons_self, hinner inner mem_cons_self⟩

/-- Operators on numbers succeed. -/
theorem Equipped.attains_apply (h : d.Equipped) (hnb : type ∈ TypeTable.numbers)
    (hids : ∀ id ∈ ids, d.Typed id type)
    (hrv : (Registry.standard.resolve name (ids.map fun _ ↦ type)).isSome = true) :
    d.Attains (Build.apply name (ids.map .node)) False fun d' id ↦ d'.Typed id type := by
  obtain ⟨⟨pos, ov⟩, hrv⟩ := isSome_iff_exists.mp hrv
  have hcal := h.calculates hnb
  have hlen : ids.length ≤ 2 := by
    have hacc := (overload?_of_resolve hrv).2
    rw [← length_map (fun _ : NodeId ↦ type)]
    rcases (hcal.overloads hrv).1.eq_of_accepts hacc with hts | hts
    all_goals
      rw [hts]
      exact Nat.le_of_ble_eq_true rfl
  have hattains := attains_perform_apply d.options.replacementLimit h.sound hcal
    (fun id hid ↦ (hids id hid).holds) hrv
  refine Attains.of_run (hattains.mono (fun hfew ↦ ?_) ?_) rfl
  · have := h.limit
    omega
  · intro d' id hl haf hsimplifies
    refine hsimplifies.typed (h.later hl haf) ?_ fun arg hop ↦ (hids arg hop).later hl
    exact TypeTable.Numeric.number hnb

theorem Equipped.attains_constant (h : d.Equipped) (hnum : d.types.Numeric type) (v : Value) :
    d.Attains (Build.constant type v) False fun d' id ↦ d'.Typed id type := by
  obtain ⟨defn, hg⟩ := h.types.exists_definition hnum
  refine (Draft.attains_constant h.sound hg v).mono (fun h ↦ h) ?_
  intro d' id hl _ hst
  exact hst.typed (hnum.extends hl.types)

section

variable (h : d.Equipped) (hnb : type ∈ TypeTable.numbers)

include h hnb

/-- A number of the type of a node, combined with the node. -/
theorem Equipped.attains_withNumber (hfloat : type ≠ "int") {a : NodeId} (ha : d.Typed a type)
    (v : Binary64) (hrv : (Registry.standard.resolve name [type, type]).isSome = true) :
    d.Attains (Build.apply name [.float v, .node a]) False
      fun d' id ↦ d'.Typed id type := by
  obtain ⟨number, middle, hc, hgr, hs, hv⟩ :=
    (h.attains_constant (.number hnb) (.float v)).exists_ok
  have hl := hgr.toPrecedes
  have hops : ∀ id ∈ [number, a], middle.Typed id type :=
    forall_mem_cons.mpr ⟨hv, forall_mem_singleton.mpr (ha.later hl)⟩
  obtain ⟨id, d', hr, hgrows', hrs⟩ := ((h.later hl hs).attains_apply hnb hops hrv).exists_ok
  obtain ⟨defn, kind, hg, hsh, -, hk⟩ := h.types.number hnb
  have hisFloat : defn.isFloat = true := by
    rw [TypeDefinition.isFloat, TypeDefinition.scalar?, hsh]
    exact hk hfloat
  obtain ⟨n, hn, rfl, -⟩ := ha.holds
  refine .inl ⟨id, d', ?_, hgr.trans hgrows', hrs⟩
  change (Build.perform middle.options.replacementLimit
    (.apply name [.node number, .node a])).run middle = _ at hr
  rw [hl.options] at hr
  exact (Setting.run_withNumber _ hn hg hisFloat hl hv.owns hc).trans hr

theorem Equipped.attains_one : d.Attains (Build.one type) False fun d' id ↦ d'.Typed id type := by
  obtain ⟨defn, kind, hg, hsh, hk, -⟩ := h.types.number hnb
  refine Attains.after_ok ?_ (run_lookupType_of_some hg)
  rw [TypeDefinition.scalar?, hsh]
  cases kind with
  | double | single | integer => exact h.attains_constant (.number hnb) _
  | boolean => exact absurd rfl hk

/-- A request for a number, made of numbers that are there, is met. -/
theorem Equipped.attains_request
    (hkn : ∀ id ∈ k, d.Typed id type) {w : Request} (hwanted : w.Calculates type k) :
    d.Attains (Build.request w) False fun d' id ↦ d'.Typed id type := by
  unfold Request.Calculates at hwanted
  split at hwanted
  next name a =>
    have hids : ∀ id ∈ [a], d.Typed id type := forall_mem_singleton.mpr (hkn a hwanted.1)
    exact h.attains_apply hnb hids hwanted.2
  next name a b =>
    obtain ⟨ha, hb, hrv⟩ := hwanted
    have hids : ∀ id ∈ [a, b], d.Typed id type :=
      forall_mem_cons.mpr ⟨hkn a ha, forall_mem_singleton.mpr (hkn b hb)⟩
    exact h.attains_apply hnb hids hrv
  next name v b =>
    obtain ⟨hfloat, hb, hrv⟩ := hwanted
    exact h.attains_withNumber hnb hfloat (hkn b hb) v hrv
  next other =>
    subst hwanted
    refine (h.attains_one hnb).of_run ?_
    show (Build.perform d.options.replacementLimit (.one other)).run d = _
    rw [perform_eq]
    rfl
  next => exact absurd hwanted id

/-- A plan that calculates with numbers is carried out to its end. -/
theorem Equipped.attains_carryOut (hkn : ∀ id ∈ k, d.Typed id type) {α : Type} {plan : Plan α}
    {res : List NodeId → α → Prop} (hplan : plan.Calculates type res k) :
    d.Attains (Build.carryOut plan) False fun d' a ↦
      ∃ k, (∀ id ∈ k, d'.Typed id type) ∧ res k a := by
  induction plan generalizing d k with
  | done a => exact attains_pure h.sound ⟨k, hkn, hplan⟩
  | fail | isZero | isOne => exact absurd hplan id
  | build w next ih =>
    obtain ⟨id, middle, hr, hgr, hs, hid⟩ := (h.attains_request hnb hkn hplan.1).exists_ok
    have hl := hgr.toPrecedes
    have hmore : ∀ other ∈ id :: k, middle.Typed other type :=
      forall_mem_cons.mpr ⟨hid, fun other ho ↦ (hkn other ho).later hl⟩
    obtain ⟨a, d', hrs, hgrows', hend⟩ := (ih (.ok id) (h.later hl hs) hmore (hplan.2 id)).exists_ok
    refine .inl ⟨a, d', ?_, hgr.trans hgrows', hend⟩
    have hobserve : (Build.observe (Build.request w)).run d = (.ok (.ok id), middle) := by
      rw [run_observe, hr]
    exact (run_bind_of_ok hobserve).trans hrs
  | inspect id next ih =>
    obtain ⟨n, hn, ht, -⟩ := (hkn id hplan.1).holds
    exact Attains.after_ok (ih n h hkn (hplan.2 n ht)) (run_node_of_some hn)

end

end Numbers

end Draft

namespace Build

open Draft

section Slots

variable {op : Operator} {base : NodeId} {q : Request} {part : String}

/-- A slot is replaced or becomes a node. -/
theorem SlotRequest.attains_perform (h : SlotRequest op base q) (hs : d.Sound)
    (hn : d.graph.node? base = some n) (hsl : d.types.slotType? n.type op = some part) {rest : Nat}
    {result : Draft → NodeId → Prop}
    (hrep : d.Attains (replace? (perform rest) op part [base]) False
      fun d' m ↦ ∀ id, m = some id → result d' id)
    (hformed : ∀ {d' : Draft} {id : NodeId} {formed : Node}, d.Precedes d' →
      d'.Sound → d'.graph.node? id = some formed → formed.type = part →
      formed.kind = .expression op [base] → formed.isAddress = n.isAddress → result d' id) :
    d.Attains (perform (rest + 1) q) False result := by
  have hproj := isProjection_of_slotType? hsl
  obtain ⟨whole, slot, hwh, htk⟩ := slotType?_iff.mp hsl
  refine attains_of_leads (perform_leads _ _ _) hs ?_
  rw [htk.run_perform h hn hwh]
  refine run_finish_formed (forall_mem_singleton.mpr (Graph.owns_of_node? hn))
    (run_evaluate?_slot hproj) hrep fun hl haf hformedNode ht hk ↦ ?_
  refine hformed hl haf hformedNode ht hk ?_
  have hba := hl.graph.node? hn
  rw [Bool.eq_iff_iff, haf.isAddress_iff hformedNode]
  constructor
  · rintro (⟨_, _, harg⟩ | ⟨_, _, tgt, ho, -, htg, haddr⟩)
    · cases hk.symm.trans harg
    · cases hk.symm.trans ho
      cases hba.symm.trans htg
      exact haddr
  · exact fun haddr ↦ .inr ⟨op, base, n, hk, hproj, hba, haddr⟩

end Slots

/-- A constructor of constants gives a constant, unless the type has no way to write it down. -/
theorem run_evaluate?_construct (hg : draft.types.get? t = some defn) (ids : List NodeId) :
    (evaluate? .construct t ids).run draft = (.ok none, draft) ∨
      ∃ v, (evaluate? .construct t ids).run draft =
        (do return some (← constant t v) : Build (Option NodeId)).run draft := by
  rw [evaluate?, run_bind_of_ok (run_constants? ids draft)]
  split
  next => exact .inl rfl
  next values _ =>
    rw [run_bind_of_ok (run_lookupType_of_some hg)]
    split
    next kind _ =>
      cases values.getLast?.bind kind.convert? with
      | none => exact .inl rfl
      | some v => exact .inr ⟨v, rfl⟩
    next => exact .inl rfl
    next => exact .inr ⟨_, rfl⟩
    next => exact .inr ⟨_, rfl⟩

end Build

namespace Draft

open Build

section Slots

variable {base : NodeId} {part : String} {op : Operator} {q : Request}

section

variable (h : d.Equipped)

include h

/-- The slots of a node of a numeric type are numeric. -/
theorem Equipped.numeric_slot (hnum : d.types.Numeric t)
    (hsl : d.types.slotType? t op = some part) : d.types.Numeric part := by
  obtain ⟨whole, slot, hwh, htk⟩ := slotType?_iff.mp hsl
  exact h.types.numeric_slot hnum hwh htk.slotType?

/-- A slot of a proper node is proper. -/
theorem Equipped.proper_slot (hba : d.Proper base) {tgt : Node}
    (htg : d.graph.node? base = some tgt) (hsl : d.types.slotType? tgt.type op = some part)
    (hn : d.graph.node? id = some n) (ht : n.type = part)
    (hk : n.kind = .expression op [base]) : d.Proper id := by
  subst ht
  refine .of_kind hn (h.numeric_slot (hba.wellTyped htg).numeric hsl) hk ?_
    (forall_mem_singleton.mpr hba)
  intro args hconstruct
  cases hconstruct
  cases hsl

/-- A slot of an address is an address. -/
theorem Equipped.attains_place (hpl : d.Locates base t path) (hpro : d.Proper base)
    (hsl : d.types.slotType? t op = some part) (hreq : SlotRequest op base q) (rest : Nat) :
    d.Attains (perform (rest + 1) q) False fun d' id ↦
      d'.Locates id part ⟨path.argument, op :: path.slots⟩ ∧ d'.Proper id := by
  obtain ⟨n, hn, rfl, haddr⟩ := hpl.node?
  obtain ⟨whole, slot, hwh, htk⟩ := slotType?_iff.mp hsl
  obtain ⟨_, -, hrep⟩ := htk.run_replace?
  refine hreq.attains_perform h.sound hn hsl ?_ ?_
  · have hr := (hrep hn hwh (perform rest) part).trans (hpl.run_project _ _ _)
    refine attains_of_ok h.sound hr fun id hno ↦ ?_
    cases hno
  · intro d' id formed hl haf hformed ht hk hsame
    have hsl := hl.types.slotType? hsl
    refine ⟨ht ▸ .part (hpl.later hl) (ht ▸ hsl) hformed (hsame.trans haddr) hk, ?_⟩
    exact (h.later hl haf).proper_slot (hpro.later hl) (hl.graph.node? hn) hsl hformed ht hk

theorem Equipped.attains_read {addr : NodeId}
    (hpl : d.Locates addr type path) (hpro : d.Proper addr) :
    d.Attains (Build.read addr) False fun d' id ↦ d'.Typed id type := by
  obtain ⟨tgt, htg, rfl, haddr⟩ := hpl.node?
  refine (Draft.attains_read h.sound htg haddr).mono id fun hl _ hrd ↦ ?_
  obtain ⟨n, hn, hk, ht, hv⟩ := hrd
  have hnum := ((hpro.later hl).wellTyped (hl.graph.node? htg)).numeric
  refine ⟨.of_kind hn (ht ▸ hnum) hk (fun _ h ↦ by cases h) ?_, n, hn, ht, hv⟩
  exact forall_mem_singleton.mpr (hpro.later hl)

/-- What a constructor takes for a slot is a proper value of the slot's type. -/
theorem Equipped.typed_part (hba : d.Proper base) (hn : d.graph.node? base = some n)
    (hv : n.isAddress = false) {args : List NodeId} (hk : n.kind = .expression .construct args)
    (hg : d.types.get? n.type = some defn) {slot : Nat} (hsl : defn.slotType? slot = some part)
    (hid : args[slot]? = some id) :
    d.Typed id part := by
  have hty := hba.wellTyped hn
  have hop : id ∈ n.operands := by
    rw [Node.operands, hk]
    exact mem_of_getElem? hid
  have hcomp : n.isComputed = true := Node.isComputed_of_expression hk hv
  obtain ⟨_, m, hf, -, haddr⟩ := h.sound.value_operand hn hcomp hop
  refine ⟨hba.operand hn hop, m, hf, ?_, haddr⟩
  rcases h.types.exists_parts hty.numeric hg with ⟨kind, hsh⟩ | ⟨parts, hps, -⟩
  · rw [TypeDefinition.slotType?, hsh] at hsl
    cases hsl
  · have hts := hty.slots hk hg hps
    rw [slotType?_eq_parts hps, ← getElem?_map] at hsl
    obtain ⟨hlt, rfl⟩ := List.getElem?_eq_some_iff.mp hid
    obtain ⟨hlt', rfl⟩ := List.getElem?_eq_some_iff.mp hsl
    obtain ⟨src, hsrc, ht⟩ := forall₂_iff_get.mp hts |>.2 slot hlt hlt'
    cases hf.symm.trans hsrc
    exact ht

/-- A slot of a proper value is a proper value. -/
theorem Equipped.attains_slot (hba : d.Typed base t)
    (hsl : d.types.slotType? t op = some part) (hreq : SlotRequest op base q) :
    d.Attains (Build.request q) False fun d' id ↦ d'.Typed id part := by
  obtain ⟨n, hn, rfl, hv⟩ := hba.holds
  obtain ⟨rest, hlim⟩ := h.exists_limit
  show d.Attains (do perform (← get).options.replacementLimit q) _ _
  refine Attains.after_ok ?_ (run_get d)
  rw [hlim]
  refine hreq.attains_perform h.sound hn hsl ?_ ?_
  · obtain ⟨whole, slot, hwh, htk⟩ := slotType?_iff.mp hsl
    obtain ⟨onAddress, honAddress, hrep⟩ := htk.run_replace?
    refine Attains.of_run (Attains.after_ok ?_ (run_node_of_some hn)) (hrep hn hwh _ _)
    have hnum := h.numeric_slot hba.numeric hsl
    split
    next value hk =>
      split
      next item _ =>
        refine (h.attains_constant hnum item).bind fun _ haf hid ↦ ?_
        exact attains_pure haf fun _ hf ↦ some.inj hf ▸ hid
      next => exact attains_pure h.sound fun _ hf ↦ by cases hf
    next operands hk =>
      exact attains_pure h.sound fun id hid ↦ h.typed_part hba.proper hn hv hk hwh htk.slotType? hid
    next addr hk =>
      obtain ⟨-, tgt, htg, haddr, ht⟩ := h.sound.read hn hk
      obtain ⟨path, hpl⟩ := h.sound.exists_place htg haddr
      have hpro := hba.proper.operands hn hk addr mem_cons_self
      refine (h.attains_place hpl hpro (ht ▸ hsl) (honAddress addr) rest).bind
        fun hl haf hpartPlace ↦ ?_
      refine ((h.later hl haf).attains_read hpartPlace.1 hpartPlace.2).bind fun _ haf hid ↦ ?_
      exact attains_pure haf fun _ hf ↦ some.inj hf ▸ hid
    next => exact attains_pure h.sound fun _ hf ↦ by cases hf
  · intro d' id formed hl haf hformed ht hk hsame
    refine ⟨?_, formed, hformed, ht, hsame.trans hv⟩
    exact (h.later hl haf).proper_slot (hba.proper.later hl)
      (hl.graph.node? hn) (hl.types.slotType? hsl) hformed ht hk

end

end Slots

section Constructors

variable {arguments : List NodeId} {ts types : List String}

section

variable (h : d.Equipped) (hnum : d.types.Numeric type) (hg : d.types.get? type = some defn)
  (hargs : Forall₂ d.Typed arguments ts)

include h hnum hg hargs

/-- A constructor that takes proper values of the types of its slots is proper. -/
theorem Equipped.typed_construct (hps : ∀ parts, defn.parts? = some parts → ts = parts.map Prod.snd)
    (hn : d.graph.node? id = some n) (ht : n.type = type)
    (hk : n.kind = .expression .construct arguments) : d.Typed id type := by
  subst ht
  have hv : n.isAddress = false := by
    refine Bool.eq_false_iff.mpr fun haddr ↦ ?_
    rcases (h.sound.isAddress_iff hn).mp haddr with
      ⟨_, _, ho⟩ | ⟨_, _, _, ho, hfalse, -⟩
    · cases hk.symm.trans ho
    · cases hk.symm.trans ho
      cases hfalse
  refine ⟨.intro hn ⟨hnum, ?_⟩ fun arg hop ↦ ?_, n, hn, rfl, hv⟩
  · intro args m parts hf hgot hls
    cases hk.symm.trans hf
    cases hg.symm.trans hgot
    rw [← hps parts hls]
    exact hargs.imp fun _ _ hty ↦ hty.hasType
  · rw [Node.operands, hk] at hop
    exact proper_of_typed hargs arg hop

/-- Constructors of proper values of the types of their slots succeed, and so do conversions of
scalars. -/
theorem Equipped.attains_construct (harity : arguments.length = defn.arity?.getD arguments.length)
    (hps : ∀ parts, defn.parts? = some parts → ts = parts.map Prod.snd) :
    d.Attains (Build.construct type arguments) False fun d' id ↦ d'.Typed id type := by
  obtain ⟨rest, hlim⟩ := h.exists_limit
  have hvs := hargs.imp fun _ _ hty ↦ hty.holds
  have hr := run_perform_construct d.options.replacementLimit hvs hg harity
  refine attains_of_leads (request_leads _ d) h.sound (.inl ?_)
  show ∃ id d', (perform d.options.replacementLimit (.construct type arguments)).run d =
    (.ok id, d') ∧ _
  rw [hr, hlim, finish]
  rcases run_evaluate?_construct hg arguments with hno | ⟨v, hc⟩
  · have howd : ∀ operand ∈ (NodeKind.expression .construct arguments).operands,
        d.graph.Owns operand := owns_of_holdsValue hvs
    rw [run_bind_of_ok hno]
    refine ⟨_, _, run_intern howd, rfl, fun hl haf ↦ ?_⟩
    obtain ⟨n, hn, ht, hk⟩ := Graph.node?_intern h.sound.interned howd
    exact (h.later hl haf).typed_construct hnum hg
      (hargs.imp fun _ _ hty ↦ hty.later hl) hps hn ht hk
  · obtain ⟨id, d', hr, hgr, -, hty⟩ := (h.attains_constant hnum v).exists_ok
    rw [run_bind_of_ok (hc.trans (run_bind_of_ok hr))]
    exact ⟨id, d', rfl, hgr.same_writes, fun _ _ ↦ hty⟩

end

end Constructors

end Draft

end DiffGraph
