import DiffGraph.Proofs.Draft.Deposits
import DiffGraph.Proofs.Draft.TypedGradients

/-!
Sweeps over well-typed values. As long as what has arrived at a node has the type of the node, seeds
are found, gradients are summed up and passed on, and what arrives at a read is written to the
gradient of its argument: seeding, sweeping and depositing come to their ends, unless a gradient
were added after its total was taken. All that is written on the way is written to gradients.
-/

set_option autoImplicit false

namespace DiffGraph

open List Stateful Build Reverse TypeDefinition Option TypeTable

variable {t type : String} {id addr : NodeId} {d : Draft} {op : Operator} {path : AccessPath}

theorem TypeDefinition.shape_of_isFloat {defn : TypeDefinition}
    (h : defn.isFloat = true) : ∃ kind, defn.shape = .scalar kind := by
  unfold isFloat scalar? at h
  split at h
  next kind hsh => exact ⟨kind, hsh⟩
  next => cases h

namespace Draft

section Writing

variable {newer : Draft} {tgt v : NodeId} {name : String} {partners : Partners}

/-- The argument is not an input. -/
def Writable (d : Draft) (name : String) : Prop :=
  ∃ id n dir, d.graph.node? id = some n ∧ n.kind = .argument name dir ∧
    dir ≠ .input

theorem Writable.later (h : d.Writable name) (hl : d.Precedes newer) : newer.Writable name := by
  obtain ⟨id, n, dir, hn, hrs⟩ := h
  exact ⟨id, n, dir, hl.graph.node? hn, hrs⟩

/-- A value is written to an address of its type that is not part of an input. -/
theorem Locates.exists_write (hpl : d.Locates tgt t path) (hs : d.Sound)
    (hwritable : d.Writable path.argument) (hv : d.HoldsValue v t) :
    ∃ id d' n, (Build.write tgt (.node v)).run d = (.ok id, d') ∧
      d.Precedes d' ∧ d'.Sound ∧ d'.graph.node? id = some n ∧ n.type = t ∧ n.kind = .write tgt v ∧
          ∀ other ∈ d'.writes, other ∈ d.writes ∨ other = id := by
  obtain ⟨m, hf, rfl, haddr⟩ := hpl.node?
  have hrt : ∀ name, ((d.graph.root? tgt).bind d.graph.node?).bind Node.argument? ≠
      some (name, .input) := by
    intro name hinput
    obtain ⟨arg, n, dir, hn, hk, hdirection⟩ := hwritable
    obtain ⟨own, hown⟩ := Graph.argumentOf?_eq_some_of_accessPath? hpl.accessPath?
    rw [bind_assoc] at hinput
    cases hown.symm.trans hinput
    obtain ⟨root, -, hrootKind⟩ := bind_eq_some_iff.mp hinput
    obtain ⟨rootNode, hrootNode, harg⟩ := bind_eq_some_iff.mp hrootKind
    have hrootKind := argument?_eq_some.mp harg
    have hsame := (hs.lookup_iff.mpr ⟨n, dir, hn, hk⟩).symm.trans
      (hs.lookup_iff.mpr ⟨rootNode, _, hrootNode, hrootKind⟩)
    cases hsame
    cases hn.symm.trans hrootNode
    cases hk.symm.trans hrootKind
    exact hdirection rfl
  have owned : ∀ operand ∈ (NodeKind.write tgt v).operands, d.graph.Owns operand :=
    forall_mem_cons.mpr ⟨hpl.owns, forall_mem_singleton.mpr hv.owns⟩
  have hr := run_write hf haddr hrt hv owned
  have hld := write_leads tgt (.node v) d
  obtain ⟨n, hn, ht, hk⟩ := Graph.node?_intern hs.interned owned
  refine ⟨_, _, n, hr, hld.precedes hr hs, hld.sound hr hs, hn, ht, hk, fun other ho ↦ ?_⟩
  dsimp only at ho
  split at ho
  · exact .inl ho
  · exact (mem_append.mp ho).imp_right mem_singleton.mp

/-- The write stores a value of the type of an address at the same place in the gradient of the
address's argument. -/
def WritesGradient (d : Draft) (partners : Partners) (id : NodeId) : Prop :=
  ∃ n tgt v addr t path other, d.graph.node? id = some n ∧
    n.kind = .write tgt v ∧ d.Locates addr t path ∧
      partners.lookup path.argument = some other ∧
        d.Locates tgt t (path.within other) ∧ d.HoldsValue v t

theorem WritesGradient.later (h : d.WritesGradient partners id)
    (hl : d.Precedes newer) : newer.WritesGradient partners id := by
  obtain ⟨n, tgt, v, addr, t, path, other, hn, hk, hpl, hlk, htg, hv⟩ := h
  exact ⟨n, tgt, v, addr, t, path, other, hl.graph.node? hn, hk,
    hpl.later hl, hlk, htg.later hl, hv.later hl⟩

/-- A later draft in which nothing more is written but gradients. -/
structure Gains (partners : Partners) (older newer : Draft) : Prop
    extends older.Precedes newer where
  gained : ∀ id ∈ newer.writes, id ∈ older.writes ∨ newer.WritesGradient partners id

theorem Grows.gains (h : d.Grows newer) (partners : Partners) : d.Gains partners newer :=
  ⟨h.toPrecedes, fun _ hid ↦ .inl (h.same_writes ▸ hid)⟩

theorem Gains.trans {middle : Draft} (h : d.Gains partners middle)
    (hla : middle.Gains partners newer) : d.Gains partners newer where
  toPrecedes := h.toPrecedes.trans hla.toPrecedes
  gained id hid := by
    rcases hla.gained id hid with hmid | hgrad
    · exact (h.gained id hmid).imp_right fun hgrad ↦ hgrad.later hla.toPrecedes
    · exact .inr hgrad

end Writing

/-- The amount is a value of the type of the node. -/
def Carries (d : Draft) (id c : NodeId) : Prop :=
  ∃ t, d.HasType id t ∧ d.Typed c t

section Carrying

variable {newer : Draft} {c amount : NodeId}

theorem Carries.later (h : d.Carries id amount) (hl : d.Precedes newer) :
    newer.Carries id amount := by
  obtain ⟨t, ht, ham⟩ := h
  exact ⟨t, ht.later hl, ham.later hl⟩

theorem Carries.typed (h : d.Carries id c) (ht : d.HasType id type) : d.Typed c type := by
  obtain ⟨other, ⟨n, hn, rfl⟩, ham⟩ := h
  obtain ⟨m, hf, rfl⟩ := ht
  cases hn.symm.trans hf
  exact ham

/-- What has arrived at a node has a sum. -/
theorem Equipped.attains_sumUp (h : d.Equipped) (ht : d.HasType id type)
    (hnum : d.types.Numeric type) {amounts : List NodeId}
    (hamounts : ∀ c ∈ amounts, d.Typed c type) :
    d.Attains (Reverse.sumUp id amounts) False fun d' m ↦ d'.Typed m type := by
  obtain ⟨n, hn, rfl⟩ := ht
  cases amounts with
  | nil =>
    exact Attains.after_ok (h.attains_constant hnum .zero) (run_typeOf_of_some hn)
  | cons first rest =>
    obtain ⟨hfst, hrs⟩ := forall_mem_cons.mp hamounts
    refine attains_foldlM h.sound hfst fun c ham d' sum hl hs hsum ↦ ?_
    exact (h.later hl hs).attains_sum hsum ((hrs c ham).later hl)

end Carrying

end Draft

namespace Sweep

open Draft

/-- What has arrived at a node, and what it sums up to, is of the type of the node. -/
structure Typed (sw : Sweep) : Prop where
  equipped : sw.draft.Equipped
  carries : sw.accumulator.Relates sw.draft.Carries

/-- The operation comes to a result as described, and writes nothing but gradients; or else it adds
to a gradient that is summed up. -/
def Proceeds {α : Type} (partners : Partners) (sw : Sweep) (x : Reverse α)
    (res : Sweep → α → Prop) : Prop :=
  (∃ a d', x.run sw = (.ok a, d') ∧ sw.draft.Gains partners d'.draft ∧
    d'.Typed ∧ res d' a) ∨
  ∃ n d', x.run sw = (.error (.gradientFinalized n), d')

variable {α β : Type} {partners : Partners} {sw : Sweep} {x : Reverse α}
  {res result : Sweep → α → Prop}

theorem Typed.grows (h : sw.Typed) (hl : sw.draft.Precedes d) (hs : d.Sound) :
    Typed ⟨d, sw.accumulator⟩ where
  equipped := h.equipped.later hl hs
  carries := h.carries.imp fun hcar ↦ hcar.later hl

section Rules

theorem Typed.proceeds_pure (h : sw.Typed) {a : α} (ha : result sw a) :
    sw.Proceeds partners (pure a) result :=
  .inl ⟨a, sw, rfl, (Grows.refl sw.draft).gains partners, h, ha⟩

theorem Proceeds.bind (h : sw.Proceeds partners x res) {next : α → Reverse β}
    {result' : Sweep → β → Prop} (hnx : ∀ {a d'}, sw.draft.Precedes d'.draft → d'.Typed → res d' a →
      d'.Proceeds partners (next a) result') :
    sw.Proceeds partners (x >>= next) result' := by
  rcases h with ⟨a, middle, hr, hmid, hty, ha⟩ | ⟨n, middle, hr⟩
  · rcases hnx hmid.toPrecedes hty ha with
      ⟨b, d', hla, haf, hrs⟩ | ⟨n, d', hla⟩
    · exact .inl ⟨b, d', (run_bind_of_ok hr).trans hla, hmid.trans haf, hrs⟩
    · exact .inr ⟨n, d', (run_bind_of_ok hr).trans hla⟩
  · exact .inr ⟨n, middle, run_bind_of_error hr⟩

/-- A first part that leaves the sweep as it is. -/
theorem Proceeds.after_ok {next : α → Reverse β} {result' : Sweep → β → Prop} {a : α}
    (h : sw.Proceeds partners (next a) result') (hr : x.run sw = (.ok a, sw)) :
    sw.Proceeds partners (x >>= next) result' := by
  unfold Proceeds
  rw [run_bind_of_ok hr]
  exact h

theorem Typed.proceeds_onDraft (h : sw.Typed) {x : Build α} {res : Draft → α → Prop}
    (hattains : sw.draft.Attains x False res) :
    sw.Proceeds partners (Reverse.onDraft x) fun d' a ↦ res d'.draft a := by
  obtain ⟨a, d, hr, hgr, hs, ha⟩ := hattains.exists_ok
  exact .inl ⟨a, ⟨d, sw.accumulator⟩, run_onDraft hr, hgr.gains partners,
    h.grows hgr.toPrecedes hs, ha⟩

theorem Typed.proceeds_foldlM (h : sw.Typed) {f : β → α → Reverse β} {l : List α} {b : β}
    (result : Sweep → β → Prop) (hb : result sw b)
    (hf : ∀ a ∈ l, ∀ {d' : Sweep} {b : β}, sw.draft.Precedes d'.draft → d'.Typed →
      result d' b → d'.Proceeds partners (f b a) result) :
    sw.Proceeds partners (l.foldlM f b) result := by
  induction l generalizing sw b with
  | nil => exact h.proceeds_pure hb
  | cons a l ih =>
    rw [foldlM_cons]
    obtain ⟨ha, hl⟩ := forall_mem_cons.mp hf
    refine (ha (.refl sw.draft) h hb).bind fun {b middle} hmid hty hb ↦ ?_
    exact ih hty hb fun other ho _ _ hlater ↦ hl other ho (hmid.trans hlater)

theorem Typed.proceeds_forM (h : sw.Typed) {f : α → Reverse PUnit} {l : List α}
    (hf : ∀ a ∈ l, ∀ {d' : Sweep}, sw.draft.Precedes d'.draft → d'.Typed →
      d'.Proceeds partners (f a) fun _ _ ↦ True) :
    sw.Proceeds partners (l.forM f) fun _ _ ↦ True := by
  induction l generalizing sw with
  | nil => exact h.proceeds_pure trivial
  | cons a l ih =>
    obtain ⟨ha, hl⟩ := forall_mem_cons.mp hf
    refine (ha (.refl sw.draft) h).bind fun hmid hty _ ↦ ?_
    exact ih hty fun other ho _ hlater ↦ hl other ho (hmid.trans hlater)

end Rules

section Gradients

variable {tgt c amount : NodeId}

/-- An amount of the right type is added. -/
theorem Typed.proceeds_push (h : sw.Typed) (hcar : sw.draft.Carries tgt c) :
    sw.Proceeds partners (Reverse.push tgt c) fun _ _ ↦ True := by
  obtain ⟨n, hn, -⟩ := hcar.choose_spec.1
  have ham := hcar.choose_spec.2.owns
  by_cases hopen : sw.accumulator.totals[tgt]? = none
  · refine .inl ⟨⟨⟩, _, run_push hn ham hopen, (Grows.refl _).gains partners, ?_, trivial⟩
    split
    · exact h
    · exact ⟨h.equipped, h.carries.add hcar⟩
  · exact .inr ⟨_, _, run_push_finalized (Graph.owns_of_node? hn) ham hopen⟩

/-- The total of a node of a numeric type is found. -/
theorem Typed.proceeds_total (h : sw.Typed) (ht : sw.draft.HasType id type)
    (hnum : sw.draft.types.Numeric type) :
    sw.Proceeds partners (Reverse.total id) fun d' m ↦ d'.draft.Typed m type := by
  cases hkn : sw.accumulator.totals[id]? with
  | some k =>
    exact .inl ⟨k, sw, run_total_known hkn, (Grows.refl _).gains partners, h,
      (h.carries.totals hkn).typed ht⟩
  | none =>
    have hamounts : ∀ c ∈ sw.accumulator.pending id, sw.draft.Typed c type :=
      fun c ham ↦ (h.carries.pending ham).typed ht
    obtain ⟨total, d, hr, hgr, hs, htot⟩ := (h.equipped.attains_sumUp ht hnum hamounts).exists_ok
    have hl := hgr.toPrecedes
    refine .inl ⟨total, _, run_total hkn hr, hgr.gains partners, ?_, htot⟩
    have hgrown := h.grows hl hs
    exact ⟨hgrown.equipped, hgrown.carries.close ⟨type, ht.later hl, htot⟩⟩

end Gradients

section Backward

variable {gradient : NodeId} {n : Node} {args : List NodeId}

/-- The slot of a gradient goes to what stands in the slot. -/
theorem Typed.proceeds_push_slot (h : sw.Typed) {part : String} (hgrad : sw.draft.Typed gradient t)
    (hsl : sw.draft.types.slotType? t op = some part) {q : Request}
    (hreq : Build.SlotRequest op gradient q) {arg : NodeId} (hop : sw.draft.HasType arg part) :
    sw.Proceeds partners (do
      Reverse.push arg (← Reverse.onDraft (Build.request q))) fun _ _ ↦ True :=
  (h.proceeds_onDraft (h.equipped.attains_slot hgrad hsl hreq)).bind
    fun hl haf ham ↦ haf.proceeds_push ⟨part, hop.later hl, ham⟩

/-- The gradient of a constructed value goes to what it was constructed from. -/
theorem Typed.proceeds_throughConstructor (h : sw.Typed) (hpro : sw.draft.Proper id)
    (hn : sw.draft.graph.node? id = some n) (hk : n.kind = .expression .construct args)
    (hgrad : sw.draft.Typed gradient n.type) :
    sw.Proceeds partners (Reverse.throughConstructor n.type args gradient)
      fun _ _ ↦ True := by
  have hty := hpro.wellTyped hn
  obtain ⟨defn, hg⟩ := h.equipped.types.exists_definition hty.numeric
  refine Proceeds.after_ok ?_ (run_onDraft (run_lookupType_of_some hg))
  rcases h.equipped.types.exists_parts hty.numeric hg with ⟨kind, hsh⟩ | ⟨parts, hps, -⟩
  · rw [hsh]
    dsimp only
    split
    next => exact h.proceeds_pure trivial
    next src rest =>
      have hsrc := hpro.operands hn hk src mem_cons_self
      obtain ⟨m, hf, hfoundTyped⟩ := hsrc.exists_node
      obtain ⟨other, ho⟩ := h.equipped.types.exists_definition hfoundTyped.numeric
      refine Proceeds.after_ok ?_ (run_onDraft (run_typeOf_of_some hf))
      refine Proceeds.after_ok ?_ (run_onDraft (run_lookupType_of_some ho))
      split
      next hfloat =>
        obtain ⟨own, hown⟩ := shape_of_isFloat hfloat
        refine (h.proceeds_onDraft (h.equipped.attains_convert hfoundTyped.numeric ho hown
          hgrad)).bind fun hl haf ham ↦ haf.proceeds_push ?_
        exact ⟨m.type, ⟨m, hl.graph.node? hf, rfl⟩, ham⟩
      next => exact h.proceeds_pure trivial
  · have hts := forall₂_map_right_iff.mp (hty.slots hk hg hps)
    have hsl {part : Operator × String} (hp : part ∈ parts) :=
      h.equipped.types.slotType?_of_mem hg hps hp
    rcases parts?_cases hps with
      ⟨fields, hsh, rfl⟩ | ⟨family, element, parameters, length, hsh, rfl⟩
    · rw [hsh]
      refine h.proceeds_forM fun e hen d' hl haf ↦ ?_
      obtain ⟨field, operand⟩ := e
      have hp := hsl (mem_map_of_mem (of_mem_zip hen).1)
      have ht : sw.draft.HasType operand field.2 :=
        (forall₂_iff_zip.mp (forall₂_map_right_iff.mp hts).flip).2 hen
      exact haf.proceeds_push_slot (hgrad.later hl) (hl.types.slotType? hp)
        (.member gradient field.1) (ht.later hl)
    · rw [hsh]
      refine h.proceeds_forM fun e hen d' hl haf ↦ ?_
      obtain ⟨operand, pos⟩ := e
      have hf : args[pos]? = some operand := mem_zipIdx_iff_getElem?.mp hen
      obtain ⟨hlt, rfl⟩ := List.getElem?_eq_some_iff.mp hf
      have hrange : pos < (range length).length := (forall₂_map_right_iff.mp hts).length_eq ▸ hlt
      have hp := hsl (mem_map_of_mem (List.getElem_mem hrange))
      have ht : sw.draft.HasType args[pos] element :=
        (forall₂_iff_get.mp (forall₂_map_right_iff.mp hts)).2 pos hlt hrange
      rw [getElem_range] at hp
      exact haf.proceeds_push_slot (hgrad.later hl) (hl.types.slotType? hp)
        (.index gradient pos) (ht.later hl)

/-- The gradient of a slot spreads over what it is a slot of. -/
theorem Typed.proceeds_push_spread (h : sw.Typed) {base : NodeId} {tgt : Node}
    (htg : sw.draft.graph.node? base = some tgt) {x : Build NodeId}
    (hspread : sw.draft.Attains x False fun d' id ↦ d'.Typed id tgt.type) :
    sw.Proceeds partners (do Reverse.push base (← Reverse.onDraft x))
      fun _ _ ↦ True := by
  refine (h.proceeds_onDraft hspread).bind fun hl haf ham ↦ haf.proceeds_push ?_
  exact ⟨tgt.type, ⟨tgt, hl.graph.node? htg, rfl⟩, ham⟩

/-- The gradient of an expression goes to its operands. -/
theorem Typed.proceeds_throughExpression (h : sw.Typed) (hpro : sw.draft.Proper id)
    (hn : sw.draft.graph.node? id = some n) (hk : n.kind = .expression op args)
    (hgrad : sw.draft.Typed gradient n.type) :
    sw.Proceeds partners (Reverse.throughExpression n.type op args gradient)
      fun _ _ ↦ True := by
  have hops : ∀ operand ∈ args, sw.draft.Proper operand := hpro.operands hn hk
  cases op with
  | construct => exact h.proceeds_throughConstructor hpro hn hk hgrad
  | registered name pos =>
    obtain ⟨ov, hov, hrv, hnb, ⟨rule, hru, hplan⟩, hvs⟩ := h.equipped.registered hn hk
    have hkn : ∀ k ∈ gradient :: args, sw.draft.Typed k n.type :=
      forall_mem_cons.mpr ⟨hgrad, fun operand hop ↦ ⟨hops operand hop, hvs operand hop⟩⟩
    have hcarried := h.equipped.attains_carryOut hnb hkn
      (hplan args gradient (Registry.overload?_of_resolve hrv).2)
    refine Proceeds.after_ok ?_ (run_get sw)
    rw [hov, bind_some, hru]
    refine (h.proceeds_onDraft hcarried).bind fun {flows d'} hl haf hflows ↦ ?_
    obtain ⟨k, hamounts, hinto⟩ := hflows
    refine haf.proceeds_forM fun flow hflow last hla hlastTyped ↦ ?_
    obtain ⟨htg, ham⟩ := hinto flow hflow
    refine hlastTyped.proceeds_push ⟨n.type, ?_, (hamounts _ ham).later hla⟩
    exact (hkn _ (mem_cons_of_mem _ htg)).hasType.later (hl.trans hla)
  | member field =>
    obtain ⟨base, rfl⟩ := h.equipped.sound.exists_base hn hk rfl
    obtain ⟨tgt, htg, hty⟩ := (hops base mem_cons_self).exists_node
    have hsl := h.equipped.sound.slotType? hn hk rfl htg
    obtain ⟨defn, pos, hg, htk⟩ := slotType?_iff.mp hsl
    obtain ⟨_, ⟨⟩, hfd⟩ | ⟨⟨⟩, -⟩ := htk
    have hpos : (Build.memberPosition tgt.type field).run sw.draft = (.ok pos, sw.draft) := by
      rw [Build.memberPosition, run_get_bind, member_of_field? hg hfd]
      rfl
    refine h.proceeds_push_spread htg (Attains.after_ok ?_ (run_typeOf_of_some htg))
    exact Attains.after_ok (h.equipped.attains_spread hty.numeric hg
      (slotType?_of_field? hfd) hgrad _) hpos
  | index pos =>
    obtain ⟨base, rfl⟩ := h.equipped.sound.exists_base hn hk rfl
    obtain ⟨tgt, htg, hty⟩ := (hops base mem_cons_self).exists_node
    have hsl := h.equipped.sound.slotType? hn hk rfl htg
    obtain ⟨defn, _, hg, htk⟩ := slotType?_iff.mp hsl
    obtain ⟨_, ⟨⟩, -⟩ | ⟨⟨⟩, hel⟩ := htk
    refine h.proceeds_push_spread htg (Attains.after_ok ?_ (run_typeOf_of_some htg))
    exact h.equipped.attains_spread hty.numeric hg (slotType?_of_element hel) hgrad _

/-- The gradient of a proper node is passed on. -/
theorem Typed.proceeds_backward (h : sw.Typed) (hpro : sw.draft.Proper id) :
    sw.Proceeds partners (Reverse.backward id) fun _ _ ↦ True := by
  obtain ⟨n, hn, hty⟩ := hpro.exists_node
  refine Proceeds.after_ok ?_ (run_onDraft (run_node_of_some hn))
  split
  next addr v hk =>
    obtain ⟨tgt, src, -, -, -, -, htg, -, hsrc, -, ht, -⟩ := h.equipped.sound.write_target hn hk
    have haddr := hpro.operands hn hk addr mem_cons_self
    refine (h.proceeds_total ⟨tgt, htg, rfl⟩ (haddr.wellTyped htg).numeric).bind
      fun hl haf hgrad ↦ haf.proceeds_push ?_
    exact ⟨tgt.type, ⟨src, hl.graph.node? hsrc, ht.symm⟩, hgrad⟩
  next hk =>
    exact (h.proceeds_total ⟨n, hn, rfl⟩ hty.numeric).bind fun _ haf _ ↦ haf.proceeds_pure trivial
  next op args hk =>
    split
    next hv =>
      refine (h.proceeds_total ⟨n, hn, rfl⟩ hty.numeric).bind fun hl haf hgrad ↦ ?_
      exact haf.proceeds_throughExpression (hpro.later hl) (hl.graph.node? hn) hk hgrad
    next => exact h.proceeds_pure trivial
  next => exact h.proceeds_pure trivial
  next => exact h.proceeds_pure trivial

end Backward

section Stages

variable {order : Array NodeId}

/-- Every written address gets the gradient of the result it belongs to. -/
theorem Typed.proceeds_seed (h : sw.Typed) (hord : ∀ id ∈ order, sw.draft.Proper id)
    {seeds : Partners} (hpairs : sw.draft.Pairs seeds) :
    sw.Proceeds partners (Reverse.seed seeds order) fun _ _ ↦ True := by
  unfold Reverse.seed
  rw [← Array.foldlM_toList]
  refine (h.proceeds_foldlM (fun _ _ ↦ True) trivial ?_).bind
    fun _ haf _ ↦ haf.proceeds_pure trivial
  intro id hid now seeded hl hnow _
  have hpro := (hord id (Array.mem_toList_iff.mp hid)).later hl
  obtain ⟨n, hn, -⟩ := hpro.exists_node
  refine Proceeds.after_ok ?_ (run_onDraft (run_node_of_some hn))
  split
  next addr v hk =>
    split
    next => exact hnow.proceeds_pure trivial
    next =>
      obtain ⟨tgt, -, -, -, -, -, htg, haddr, -⟩ := hnow.equipped.sound.write_target hn hk
      obtain ⟨path, hpl⟩ := hnow.equipped.sound.exists_place htg haddr
      have hproperAddress := hpro.operands hn hk addr mem_cons_self
      refine (hnow.proceeds_onDraft (hnow.equipped.attains_partner? hpl hproperAddress
        (hpairs.later hl))).bind fun {m d'} hmore haf hf ↦ ?_
      cases m with
      | none => exact haf.proceeds_pure trivial
      | some partner =>
        obtain ⟨hpt, other, -, hplaced⟩ := hf partner rfl
        refine (haf.proceeds_onDraft (haf.equipped.attains_read hplaced hpt)).bind
          fun hla hlastTyped ham ↦ ?_
        refine (hlastTyped.proceeds_push ⟨tgt.type, ?_, ham⟩).bind
          fun _ hend _ ↦ hend.proceeds_pure trivial
        exact ⟨tgt, (hmore.trans hla).graph.node? htg, rfl⟩
  next => exact hnow.proceeds_pure trivial

/-- The gradients of proper nodes are passed on one after another. -/
theorem Typed.proceeds_sweep (h : sw.Typed) (hord : ∀ id ∈ order, sw.draft.Proper id) :
    sw.Proceeds partners (order.reverse.forM Reverse.backward) fun _ _ ↦ True := by
  rw [array_forM_eq]
  refine h.proceeds_forM fun id hid now hl hnow ↦ hnow.proceeds_backward ?_
  exact (hord id (Array.mem_reverse.mp (Array.mem_toList_iff.mp hid))).later hl

/-- The gradient of a read takes its share in that of a value around it. -/
theorem Typed.proceeds_effectiveGradient (h : sw.Typed) {read : NodeId}
    (hrd : sw.draft.HasType read type) (hpl : sw.draft.Locates addr type path)
    (hnum : sw.draft.types.Numeric type) {effective : Bindings}
    (heffective : ∀ ⦃around outer : NodeId⦄, effective[around]? = some outer → sw.draft.Carries around outer) :
    sw.Proceeds partners (Reverse.effectiveGradient effective read addr)
      fun d' gradient ↦ d'.draft.Typed gradient type := by
  refine (h.proceeds_total hrd hnum).bind fun {own now} hl hnow hown ↦ ?_
  refine Proceeds.after_ok ?_ (run_get now)
  dsimp only
  split
  next => exact hnow.proceeds_pure hown
  next depth _ =>
    split
    next => exact hnow.proceeds_pure hown
    next outer houter =>
      obtain ⟨around, haro, hbd⟩ := bind_eq_some_iff.mp houter
      have hpl := hpl.later hl
      have hlineage : now.draft.graph.lineage addr =
          (now.draft.graph.lineage addr).take (depth + 1) ++
            around :: (now.draft.graph.lineage addr).drop (depth + 2) := by
        rw [getElem?_tail] at haro
        obtain ⟨hlt, rfl⟩ := List.getElem?_eq_some_iff.mp haro
        rw [← drop_eq_getElem_cons hlt, take_append_drop]
      obtain ⟨outerType, slots, hplaceAround, hway⟩ := hpl.way hlineage
      obtain ⟨tgt, htg, htargetType, -⟩ := hplaceAround.node?
      have houterTyped := ((heffective hbd).later hl).typed ⟨tgt, htg, htargetType⟩
      have hshare := hway.attains_descend hnow.equipped Draft.Typed
        (fun hequipped hba hsl hreq ↦ hequipped.attains_slot hba hsl hreq)
        houterTyped
      exact hnow.proceeds_onDraft (hshare.bind fun hmore hs hshare ↦
        (hnow.equipped.later hmore hs).attains_sum (hown.later hmore) hshare)

/-- A gradient is written to the partner of an address. -/
theorem Typed.proceeds_write (h : sw.Typed) {partner gradient : NodeId} {other : String}
    (hpl : sw.draft.Locates addr t path) (hlk : partners.lookup path.argument = some other)
    (hpt : sw.draft.Locates partner t (path.within other))
    (hwritable : sw.draft.Writable other) (hgrad : sw.draft.Typed gradient t) :
    sw.Proceeds partners (Reverse.onDraft (Build.write partner (.node gradient)))
      fun _ _ ↦ True := by
  obtain ⟨id, d, n, hr, hl, hs, hn, -, hk, hws⟩ :=
    hpt.exists_write h.equipped.sound hwritable hgrad.holds
  refine .inl ⟨id, _, run_onDraft hr, ⟨hl, fun other ho ↦ ?_⟩, h.grows hl hs, trivial⟩
  refine (hws other ho).imp_right fun hsame ↦ ?_
  exact hsame ▸ ⟨n, partner, gradient, addr, t, path, _, hn, hk,
    hpl.later hl, hlk, hpt.later hl, hgrad.holds.later hl⟩

/-- What arrives at the reads is written to the gradients of their arguments. -/
theorem Typed.proceeds_deposit (h : sw.Typed) (hord : ∀ id ∈ order, sw.draft.Proper id)
    (hpairs : sw.draft.Pairs partners)
    (hwritable : ∀ ⦃name other : String⦄, partners.lookup name = some other →
      sw.draft.Writable other) :
    sw.Proceeds partners (Reverse.deposit partners order) fun _ _ ↦ True := by
  refine Proceeds.after_ok ?_ (run_get sw)
  refine (h.proceeds_foldlM (fun d' effective ↦ ∀ ⦃around outer : NodeId⦄,
    effective[around]? = some outer → d'.draft.Carries around outer) ?_ ?_).bind
      fun _ haf _ ↦ haf.proceeds_pure trivial
  · intro around outer hno
    simp at hno
  · intro e hen now effective hl hnow heffective
    obtain ⟨hm, n, name, dir, hn, hk, -⟩ := mem_bearingReads.mp hen
    obtain ⟨read, addr⟩ := e
    have hpro := (hord read hm).later hl
    have hn := hl.graph.node? hn
    obtain ⟨-, tgt, htg, haddr, ht⟩ := hnow.equipped.sound.read hn hk
    obtain ⟨path, hpl⟩ := hnow.equipped.sound.exists_place htg haddr
    have hproperAddress := hpro.operands hn hk addr mem_cons_self
    refine (hnow.proceeds_effectiveGradient ⟨n, hn, ht.symm⟩ hpl
      (hproperAddress.wellTyped htg).numeric heffective).bind fun {gradient d'} hmore haf hgrad ↦ ?_
    have hnoted : ∀ {last : Sweep}, d'.draft.Precedes last.draft → ∀ ⦃around outer : NodeId⦄,
        (effective.insert addr gradient)[around]? = some outer →
          last.draft.Carries around outer := by
      intro last hla around outer houter
      rw [Std.HashMap.getElem?_insert] at houter
      split at houter
      next hsame =>
        cases houter
        cases eq_of_beq hsame
        exact ⟨tgt.type, ⟨tgt, (hmore.trans hla).graph.node? htg, rfl⟩, hgrad.later hla⟩
      next => exact (heffective houter).later (hmore.trans hla)
    obtain ⟨m, hf, -⟩ := hgrad.holds
    refine Proceeds.after_ok ?_ (run_onDraft (run_isZero hf))
    split
    next => exact haf.proceeds_pure (hnoted (.refl _))
    next =>
      refine (haf.proceeds_onDraft (haf.equipped.attains_partner? (hpl.later hmore)
        (hproperAddress.later hmore) (hpairs.later (hl.trans hmore)))).bind
          fun {partner? last} hla hlastTyped hpt ↦ ?_
      cases partner? with
      | none => exact hlastTyped.proceeds_pure (hnoted hla)
      | some partner =>
        obtain ⟨-, other, hlk, hplaced⟩ := hpt partner rfl
        refine (hlastTyped.proceeds_write ((hpl.later hmore).later hla) hlk hplaced
          ((hwritable hlk).later ((hl.trans hmore).trans hla))
          (hgrad.later hla)).bind fun hend hendTyped _ ↦ ?_
        exact hendTyped.proceeds_pure (hnoted (hla.trans hend))

end Stages

end Sweep

end DiffGraph
