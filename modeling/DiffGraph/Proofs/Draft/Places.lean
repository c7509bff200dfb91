import DiffGraph.Proofs.Draft.Copying
import DiffGraph.Proofs.Draft.Slots
import DiffGraph.Proofs.Graph.Denotation

/-!
Places: the addresses of a draft, each with its type and the way that leads to it. A sound draft has
one address for each way (`Locates.unique`), and the type of a slot depends on the type of what it is
taken of only. So the slots that lead to a part of one argument lead to a part of the same type in
any other argument of the same type (`Locates.descend`), and this is how an address and the address of
its gradient belong together.
-/

set_option autoImplicit false

namespace DiffGraph

open Stateful Build Draft TypeTable Option List

variable {path : AccessPath} {t other rootType : String} {op : Operator} {n : Node} {root : NodeId}
  {partners : Partners}

namespace TypeTable

/-- The type of a slot, if the type has it. -/
def slotType? (ts : TypeTable) (t : String) : Operator → Option String
  | .member field => (ts.get? t).bind fun defn ↦ (defn.field? field).map Prod.snd
  | .index pos => (ts.get? t).bind fun defn ↦ (defn.element pos).toOption
  | .registered .. | .construct => none

variable {ts newer : TypeTable} {part : String}

theorem isProjection_of_slotType? (h : ts.slotType? t op = some part) : op.isProjection = true := by
  cases op with
  | registered | construct => cases h
  | member | index => rfl

theorem slotType?_iff : ts.slotType? t op = some part ↔
    ∃ whole slot, ts.get? t = some whole ∧ TakesSlot whole op slot part := by
  have htoOption (outcome : Except TypeError String) :
      outcome.toOption = some part ↔ outcome = .ok part := by
    cases outcome <;> simp [Except.toOption]
  cases op <;> simp [slotType?, TakesSlot, bind_eq_some_iff, htoOption]

theorem Extends.slotType? (h : ts.Extends newer) (hsl : ts.slotType? t op = some part) :
    newer.slotType? t op = some part := by
  obtain ⟨whole, slot, hwh, htk⟩ := slotType?_iff.mp hsl
  obtain ⟨wider, hwd, hwn⟩ := h.get? hwh
  exact slotType?_iff.mpr ⟨wider, slot, hwd, htk.widens hwn⟩

/-- A number has no slots. -/
theorem slotType?_scalar {defn : TypeDefinition} {kind : Scalar} (hg : ts.get? t = some defn)
    (hsh : defn.shape = .scalar kind) (op : Operator) : ts.slotType? t op = none := by
  cases op with
  | registered | construct => rfl
  | member field =>
    simp [slotType?, hg, TypeDefinition.field?, TypeDefinition.fields, hsh]
  | index pos =>
    simp [slotType?, hg, TypeDefinition.element, hsh, Except.toOption]

end TypeTable

namespace Draft

/-- An address of the type, with the way that leads to it. -/
inductive Locates (d : Draft) : NodeId → String → AccessPath → Prop
  | argument {id : NodeId} {n : Node} {name : String} {dir : Direction}
      (hn : d.graph.node? id = some n) (haddr : n.isAddress = true)
      (hk : n.kind = .argument name dir) : Locates d id n.type ⟨name, []⟩
  | part {id base : NodeId} {n : Node} {op : Operator} {t name : String}
      {slots : List Operator} (hba : Locates d base t ⟨name, slots⟩)
      (hsl : d.types.slotType? t op = some n.type)
      (hn : d.graph.node? id = some n) (haddr : n.isAddress = true)
      (hk : n.kind = .expression op [base]) :
      Locates d id n.type ⟨name, op :: slots⟩

section Places

variable {d newer : Draft} {id : NodeId}

theorem Locates.node? (h : d.Locates id t path) :
    ∃ n, d.graph.node? id = some n ∧ n.type = t ∧ n.isAddress = true := by
  cases h with
  | argument hn haddr | part _ _ hn haddr => exact ⟨_, hn, rfl, haddr⟩

theorem Locates.owns (h : d.Locates id t path) : d.graph.Owns id := by
  obtain ⟨n, hn, -⟩ := h.node?
  exact Graph.owns_of_node? hn

theorem Locates.later (h : d.Locates id t path) (hl : d.Precedes newer) :
    newer.Locates id t path := by
  induction h with
  | argument hn haddr hk => exact .argument (hl.graph.node? hn) haddr hk
  | part _ hsl hn haddr hk ih =>
    exact .part ih (hl.types.slotType? hsl) (hl.graph.node? hn) haddr hk

theorem Locates.accessPath? (h : d.Locates id t path) : d.graph.accessPath? id = some path := by
  induction h with
  | argument hn _ hk => exact Graph.accessPath?_of_argument hn hk
  | part _ hsl hn _ hk ih =>
    rw [Graph.accessPath?_of_projection hn hk (isProjection_of_slotType? hsl), ih]
    rfl

/-- The slot that an address was formed for is there. -/
theorem Sound.slotType? (hs : d.Sound) {tgt : Node} {base : NodeId}
    (hn : d.graph.node? id = some n) (hk : n.kind = .expression op [base])
    (hopt : op.isProjection = true) (htg : d.graph.node? base = some tgt) :
    d.types.slotType? tgt.type op = some n.type := by
  obtain ⟨_, m, whole, slot, hba, hf, -, hwh, htk⟩ := hs.takesSlot hn hk hopt
  cases hba
  cases hf.symm.trans htg
  exact slotType?_iff.mpr ⟨whole, slot, hwh, htk⟩

theorem Sound.exists_place (hs : d.Sound)
    (hn : d.graph.node? id = some n) (haddr : n.isAddress = true) :
    ∃ path, d.Locates id n.type path := by
  induction hix : id.index using Nat.strongRecOn generalizing id n with
  | ind index ih =>
    rcases (hs.isAddress_iff hn).mp haddr with
      ⟨name, direction, hk⟩ | ⟨op, base, tgt, hk, hopt, htg, hta⟩
    · exact ⟨_, .argument hn haddr hk⟩
    · have hlt : base.index < id.index :=
        Graph.operand_index_lt hn (Node.mem_operands hk mem_cons_self)
      obtain ⟨⟨name, slots⟩, hba⟩ := ih base.index (hix ▸ hlt) htg hta rfl
      exact ⟨_, .part hba (hs.slotType? hn hk hopt htg) hn haddr hk⟩

/-- An address that was there before was at the same place. -/
theorem Locates.earlier (hs : d.Sound) (hpr : d.Precedes newer)
    (h : newer.Locates id t path) (how : d.graph.Owns id) : d.Locates id t path := by
  obtain ⟨n, hn⟩ := Graph.owns_iff_node?.mp how
  obtain ⟨m, hf, rfl, haddr⟩ := h.node?
  obtain rfl := some.inj ((hpr.graph.node? hn).symm.trans hf)
  obtain ⟨way, hpl⟩ := hs.exists_place hn haddr
  obtain rfl := some.inj ((hpl.later hpr).accessPath?.symm.trans h.accessPath?)
  exact hpl

/-- There is one address for each way, and it has one type. -/
theorem Locates.unique (hs : d.Sound) {other : NodeId} {otherType : String}
    (h : d.Locates id t path) (ho : d.Locates other otherType path) :
    id = other ∧ t = otherType := by
  induction h generalizing other otherType with
  | argument hn _ hk =>
    cases ho with
    | argument hn' _ hk' =>
      have hlk := hs.lookup_iff.mpr ⟨_, _, hn, hk⟩
      obtain rfl := some.inj (hlk.symm.trans (hs.lookup_iff.mpr ⟨_, _, hn', hk'⟩))
      cases hn.symm.trans hn'
      exact ⟨rfl, rfl⟩
  | part _ hsl hn _ hk ih =>
    cases ho with
    | part hba hslot' hn' _ hk' =>
      obtain ⟨rfl, rfl⟩ := ih hba
      have ht := some.inj (hsl.symm.trans hslot')
      exact ⟨hs.interned.eq_of_contents hn hn' ht (hk.trans hk'.symm), ht⟩

/-- What an address is a part of has slots. -/
theorem Locates.slotType?_of_mem_tail (h : d.Locates id t path) {around : NodeId}
    (haro : around ∈ (d.graph.lineage id).tail) :
    ∃ tgt op part, d.graph.node? around = some tgt ∧ d.types.slotType? tgt.type op = some part := by
  induction h with
  | argument hn _ hk =>
    rw [Graph.lineage_of_base_none hn (by rw [hk]; rfl)] at haro
    exact absurd haro not_mem_nil
  | @part _ base _ _ _ _ _ hba hsl hn _ hk ih =>
    have hp := Graph.base?_of_projection hk (isProjection_of_slotType? hsl)
    rw [Graph.lineage_of_base hn hp, tail_cons] at haro
    by_cases heq : around = base
    · subst heq
      obtain ⟨tgt, htg, rfl, -⟩ := hba.node?
      exact ⟨tgt, _, _, htg, hsl⟩
    · obtain ⟨rest, hrs⟩ := Graph.lineage_eq_cons hba.owns
      rw [hrs] at haro ih
      exact ih ((mem_cons.mp haro).resolve_left heq)

/-- Names for the same term lead to it in the same way. -/
theorem Same.place (hd : d.Sound) (hnewer : newer.Sound)
    (hts : d.types.Extends newer.types) {copy : NodeId} (h : Same d newer id copy)
    (hpl : d.Locates id t path) : newer.Locates copy t path := by
  induction hpl generalizing copy with
  | argument hn haddr hk =>
    obtain ⟨n', hn'⟩ := Graph.owns_iff_node?.mp h.right
    obtain ⟨ht, hsame⟩ := h.contents hn hn'
    have haddr' := (h.isAddress_eq hd hnewer hn hn').symm.trans haddr
    rw [hk] at hsame
    generalize hk' : n'.kind = kind at hsame
    cases hsame
    exact ht ▸ .argument hn' haddr' hk'
  | part _ hsl hn haddr hk ih =>
    obtain ⟨n', hn'⟩ := Graph.owns_iff_node?.mp h.right
    obtain ⟨ht, hsame⟩ := h.contents hn hn'
    have haddr' := (h.isAddress_eq hd hnewer hn hn').symm.trans haddr
    rw [hk] at hsame
    generalize hk' : n'.kind = kind at hsame
    cases hsame with
    | expression _ hops =>
      obtain - | ⟨hba, hno⟩ := hops
      cases hno
      rw [ht] at hsl ⊢
      exact .part (ih hba) (hts.slotType? hsl) hn' haddr' hk'

end Places

section Slots

variable {d d' : Draft} {base id : NodeId} {part name : String} {slots : List Operator}

/-- Nothing is known of the slot of an address. -/
theorem Locates.run_project (h : d.Locates base t path) (perform : Request → Build NodeId)
    (onAddress : NodeId → Request) (slot : Nat) :
    (Build.project perform onAddress part base slot).run d = (.ok none, d) := by
  cases h with
  | argument hn _ hk =>
    rw [Build.project, run_bind_of_ok (run_node_of_some hn), hk]
    rfl
  | @part _ _ _ op _ _ _ _ hsl hn _ hk =>
    rw [Build.project, run_bind_of_ok (run_node_of_some hn), hk]
    cases op with
    | registered | construct => cases hsl
    | member | index => rfl

/-- A slot of an address is the address of the slot. -/
theorem Locates.ok_of_run_rebuild (hs : d.Sound) (hba : d.Locates base t ⟨name, slots⟩)
    (hsl : d.types.slotType? t op = some part) {given : String}
    (hr : (Build.rebuild op given [base]).run d = (.ok id, d')) :
    d'.Locates id part ⟨name, op :: slots⟩ ∧ d'.writes = d.writes := by
  obtain ⟨tgt, htg, rfl, hta⟩ := hba.node?
  have hintern : (Build.intern part (.expression op [base]) true).run d = (.ok id, d') := by
    obtain ⟨whole, slot, hwh, htk⟩ := slotType?_iff.mp hsl
    obtain ⟨q, hreq⟩ := exists_slotRequest htk.isProjection base
    obtain ⟨onAddress, -, hrep⟩ := htk.run_replace?
    rw [hreq.rebuild_eq, Build.request, run_get_bind, htk.run_perform hreq htg hwh, hta] at hr
    exact ok_of_run_finish (run_evaluate?_slot htk.isProjection)
      (fun _ ↦ (hrep htg hwh _ _).trans (hba.run_project _ _ _)) hr
  have hld := (rebuild_grants op given [base] d).1
  have hpr := hld.precedes hr hs
  have haf := hld.sound hr hs
  obtain ⟨owned, rfl, rfl⟩ := ok_of_run_intern hintern
  obtain ⟨n, hn, rfl, hk⟩ := @Graph.node?_intern _ part _ true hs.interned owned
  refine ⟨.part (hba.later hpr) hsl hn ?_ hk, rfl⟩
  exact (haf.isAddress_iff hn).mpr (.inr ⟨op, base, tgt, hk,
    isProjection_of_slotType? hsl, hpr.graph.node? htg, hta⟩)

/-- The slots that lead to a part of one argument lead to a part of the same type in another argument
of the same type. -/
theorem Locates.descend (hs : d.Sound) (h : d.Locates id t path) {partner m : NodeId}
    (hrt : d.Locates root rootType ⟨path.argument, []⟩)
    (hpt : d.Locates partner rootType ⟨other, []⟩)
    (hr : (Build.descend partner (d.graph.lineage id).dropLast.reverse).run d = (.ok m, d')) :
    d'.Locates m t (path.within other) ∧ d'.writes = d.writes := by
  -- The induction is on the address: its last slot is taken after those of what it is a part of.
  induction h generalizing m d' with
  | argument hn haddr hk =>
    rw [Graph.lineage_of_base_none hn (by rw [hk]; rfl)] at hr
    obtain ⟨rfl, rfl⟩ := ok_of_run_pure hr
    obtain ⟨-, rfl⟩ := Locates.unique hs (.argument hn haddr hk) hrt
    exact ⟨hpt, rfl⟩
  | @part id base n op _ _ _ hba hsl hn _ hk ih =>
    have hp := Graph.base?_of_projection hk (isProjection_of_slotType? hsl)
    rw [Graph.lineage_of_base hn hp,
      dropLast_cons_of_ne_nil (Graph.lineage_ne_nil hba.owns), reverse_cons,
      descend_append] at hr
    obtain ⟨outer, s, houter, hslotRun⟩ := ok_of_run_bind hr
    have hld := enlarges (·.descend partner (d.graph.lineage base).dropLast.reverse) d
    have hpr := hld.precedes houter hs
    rw [run_descend_part (hpr.graph.node? hn) hk] at hslotRun
    obtain ⟨hf, hws⟩ := ih hrt houter
    obtain ⟨hslotted, hsame⟩ := Locates.ok_of_run_rebuild (hld.sound houter hs) hf
      (hpr.types.slotType? hsl) hslotRun
    exact ⟨hslotted, hsame.trans hws⟩

/-- The partner of an address is the same part of the partner argument. -/
theorem Locates.ok_of_run_partnerAddress? (hs : d.Sound) (h : d.Locates id t path)
    (hlk : partners.lookup path.argument = some other)
    {argument : NodeId} (hrt : d.Locates root rootType ⟨path.argument, []⟩)
    (harg : d.Locates argument rootType ⟨other, []⟩) {m : Option NodeId}
    (hr : (Build.partnerAddress? partners id).run d = (.ok m, d')) :
    ∃ partner, m = some partner ∧ d'.Locates partner t (path.within other) ∧
      d'.writes = d.writes := by
  obtain ⟨dir, hrootKind⟩ := Graph.argumentOf?_eq_some_of_accessPath? h.accessPath?
  have hpt : (Build.argument other).run d = (.ok argument, d) := by
    cases harg with
    | argument hn _ hk =>
      exact run_argument (hs.lookup_iff.mpr ⟨_, _, hn, hk⟩)
  rw [Build.partnerAddress?, run_get_bind] at hr
  dsimp only at hr
  rw [← Graph.argumentOf?, hrootKind] at hr
  dsimp only at hr
  rw [hlk] at hr
  dsimp only at hr
  rw [run_bind_of_ok hpt] at hr
  obtain ⟨partner, s, hdescend, hret⟩ := ok_of_run_bind hr
  obtain ⟨rfl, rfl⟩ := ok_of_run_pure hret
  exact ⟨partner, rfl, h.descend hs hrt harg hdescend⟩

/-- An argument without a partner has none for its parts. -/
theorem Locates.run_partnerAddress?_none (h : d.Locates id t path)
    (hlk : partners.lookup path.argument = none) :
    (Build.partnerAddress? partners id).run d = (.ok none, d) := by
  obtain ⟨dir, hrt⟩ := Graph.argumentOf?_eq_some_of_accessPath? h.accessPath?
  rw [Build.partnerAddress?, run_get_bind]
  dsimp only
  rw [← Graph.argumentOf?, hrt]
  dsimp only
  rw [hlk]
  rfl

end Slots

end Draft

end DiffGraph
