import DiffGraph.Proofs.Draft.Gradients
import DiffGraph.Proofs.Draft.TypedValues

/-!
Gradients of well-typed values. Two gradients of one type have a sum of this type, a gradient of a
slot spreads over the value it is a slot of, and the way that leads to a part of an address is
followed in a value of the address's type or in the gradient of its argument. None of this fails.
-/

set_option autoImplicit false

namespace DiffGraph

open List Stateful TypeDefinition Registry TypeTable

variable {t type name other : String} {around : NodeId} {partners : Partners}

/-- A type that can be added to another one is the type of a number. -/
theorem Registry.number_of_resolve (h : (Registry.standard.resolve name [t, other]).isSome = true) :
    t ∈ TypeTable.numbers := by
  obtain ⟨⟨pos, ov⟩, hrv⟩ := Option.isSome_iff_exists.mp h
  obtain ⟨number, hnb, -, hreplaces, -⟩ := standard_passesNumbers (mem_of_resolve hrv).1
  rcases hreplaces.eq_of_accepts (overload?_of_resolve hrv).2 with hts | hts
  · cases hts
  · cases hts
    exact hnb

theorem Registry.isSome_resolve_add (h : t ∈ TypeTable.numbers) :
    (Registry.standard.resolve "+" [t, t]).isSome = true := by
  simp only [TypeTable.numbers, mem_cons, not_mem_nil, or_false] at h
  rcases h with rfl | rfl | rfl <;> decide +kernel

/-- Operations that leave the state as it is, one after another. -/
theorem Stateful.run_mapM_of_ok {σ α β : Type} {f : α → Stateful σ β} {g : α → β} {s : σ}
    {l : List α} (h : ∀ a ∈ l, (f a).run s = (.ok (g a), s)) :
    (l.mapM f).run s = (.ok (l.map g), s) := by
  induction l with
  | nil => rfl
  | cons a l ih =>
    obtain ⟨ha, hl⟩ := forall_mem_cons.mp h
    rw [mapM_cons, run_bind_of_ok ha, run_bind_of_ok (ih hl)]
    rfl

namespace TypeTable

variable {ts : TypeTable} {defn : TypeDefinition} {parts : List (Operator × String)}
  {part : Operator × String}

/-- The slot of a part has the type of the part. -/
theorem Grown.slotType?_of_mem (hts : ts.Grown) (hg : ts.get? t = some defn)
    (hps : defn.parts? = some parts) (hp : part ∈ parts) :
    ts.slotType? t part.1 = some part.2 := by
  obtain ⟨pos, hpos⟩ := getElem?_of_mem hp
  obtain ⟨op, slot⟩ := part
  exact slotType?_iff.mpr ⟨defn, pos, hg, hts.part_cases hg hps hpos⟩

end TypeTable

namespace Draft

open Build

variable {d : Draft} {defn : TypeDefinition} {parts : List (Operator × String)}
  {a b gradient : NodeId}

section Sums

section

variable (h : d.Equipped)

include h

/-- Values that are built one after another. -/
theorem Equipped.attains_mapM_typed {α : Type} (typeOf : α → String)
    {f : α → Build NodeId} {l : List α} (hf : ∀ a ∈ l, ∀ {d' : Draft}, d.Precedes d' →
      d'.Equipped → d'.Attains (f a) False fun last id ↦ last.Typed id (typeOf a)) :
    d.Attains (l.mapM f) False fun d' ids ↦ Forall₂ d'.Typed ids (l.map typeOf) := by
  have hmap : d.Attains (l.mapM f) False fun d' ids ↦
      Forall₂ (fun a id ↦ d'.Typed id (typeOf a)) l ids :=
    attains_mapM (fun hl hty ↦ hty.later hl) h.sound fun a ha d' hl hs ↦ hf a ha hl (h.later hl hs)
  exact hmap.mono (fun hfl ↦ hfl) fun _ _ hids ↦ forall₂_map_right_iff.mpr hids.flip

theorem Equipped.attains_aggregate (hnum : d.types.Numeric type)
    (hg : d.types.get? type = some defn) (hps : defn.parts? = some parts)
    {ids : List NodeId} (hids : Forall₂ d.Typed ids (parts.map Prod.snd)) :
    d.Attains (Build.construct type ids) False fun d' id ↦ d'.Typed id type := by
  refine h.attains_construct hnum hg hids ?_ fun other ho ↦ ?_
  · rw [arity?_of_parts? hps, Option.getD_some, hids.length_eq, length_map]
  · rw [Option.some.inj (hps.symm.trans ho)]

/-- The conversion of one number into another. -/
theorem Equipped.attains_convert (hnum : d.types.Numeric type) (hg : d.types.get? type = some defn)
    {kind : Scalar} (hsh : defn.shape = .scalar kind) {src : String} (ha : d.Typed a src) :
    d.Attains (Build.construct type [a]) False fun d' id ↦ d'.Typed id type := by
  have hids : Forall₂ d.Typed [a] [src] := .cons ha .nil
  refine h.attains_construct hnum hg hids ?_ fun parts hps ↦ ?_
  · rw [TypeDefinition.arity?, hsh]
    rfl
  · rw [TypeDefinition.parts?, hsh] at hps
    cases hps

theorem Equipped.attains_sumWithin_number (hnb : type ∈ TypeTable.numbers)
    (ha : d.Typed a type) (hb : d.Typed b type) (depth : Nat) :
    d.Attains (Build.sumWithin (depth + 1) a b) False fun d' id ↦ d'.Typed id type := by
  obtain ⟨n, hn, rfl, -⟩ := ha.holds
  obtain ⟨other, ho, ht, -⟩ := hb.holds
  have hrv := isSome_resolve_add hnb
  have hids : ∀ id ∈ [a, b], d.Typed id n.type :=
    forall_mem_cons.mpr ⟨ha, forall_mem_singleton.mpr hb⟩
  refine Attains.after_ok (Attains.after_ok (Attains.after_ok ?_ (run_get d))
    (run_typeOf_of_some ho)) (run_typeOf_of_some hn)
  rw [ht, h.operators, if_pos hrv]
  exact h.attains_apply hnb hids hrv

/-- Gradients of one type are added slot by slot, down to the numbers they are made of. -/
theorem Equipped.attains_sumWithin {depth : Nat}
    (hdeep : d.types.NumericWithin depth type) (ha : d.Typed a type) (hb : d.Typed b type) :
    d.Attains (Build.sumWithin (depth + 1) a b) False fun d' id ↦ d'.Typed id type := by
  induction depth generalizing d type a b with
  | zero => exact h.attains_sumWithin_number hdeep ha hb 0
  | succ depth ih =>
    rcases hdeep with hnb | ⟨defn, parts, hg, hps, hdeep⟩
    · exact h.attains_sumWithin_number hnb ha hb _
    by_cases hrv : (Registry.standard.resolve "+" [type, type]).isSome = true
    · exact h.attains_sumWithin_number (number_of_resolve hrv) ha hb _
    obtain ⟨n, hn, rfl, -⟩ := ha.holds
    obtain ⟨other, ho, ht, -⟩ := hb.holds
    refine Attains.after_ok (Attains.after_ok (Attains.after_ok ?_ (run_get d))
      (run_typeOf_of_some ho)) (run_typeOf_of_some hn)
    rw [ht, h.operators, if_neg hrv]
    refine Attains.after_ok ?_ (run_isZero hn)
    split
    · exact attains_pure h.sound hb
    refine Attains.after_ok ?_ (run_isZero ho)
    split
    · exact attains_pure h.sound ha
    refine Attains.after_ok ?_ (run_lookupType_of_some hg)
    rw [slots?_of_parts? hps]
    dsimp only
    rw [mapM_map]
    refine (h.attains_mapM_typed Prod.snd fun part hp {d'} hl hequipped ↦ ?_).bind
      fun {ids d'} hl hs hids ↦ ?_
    · have hsl := h.types.slotType?_of_mem hg hps hp
      have hproj := isProjection_of_slotType? hsl
      obtain ⟨first, hfst⟩ := exists_slotRequest hproj a
      obtain ⟨second, hsnd⟩ := exists_slotRequest hproj b
      dsimp only [Function.comp_apply]
      rw [hfst.slot_eq, hsnd.slot_eq]
      refine (hequipped.attains_slot (ha.later hl) (hl.types.slotType? hsl) hfst).bind
        fun {left middle} hmid hs hleft ↦ ?_
      have hequipped := hequipped.later hmid hs
      have hear := hl.trans hmid
      refine (hequipped.attains_slot (hb.later hear) (hear.types.slotType? hsl)
        hsnd).bind fun {right last} hla hs hright ↦ ?_
      exact ih (hequipped.later hla hs)
        ((hdeep part hp).extends (hear.trans hla).types) (hleft.later hla) hright
    · obtain ⟨wider, hwd, hwn⟩ := hl.types.get? hg
      exact (h.later hl hs).attains_aggregate (ha.later hl).numeric hwd (hwn.parts?.trans hps) hids

/-- Gradients of one type can be added. -/
theorem Equipped.attains_sum (ha : d.Typed a type) (hb : d.Typed b type) :
    d.Attains (Build.sum a b) False fun d' id ↦ d'.Typed id type :=
  Attains.after_ok (h.attains_sumWithin ha.numeric.within ha hb) (run_get d)

end

end Sums

section Spreading

theorem run_slotTypes (hps : defn.parts? = some parts) (op : Operator) :
    (Build.slotTypes op defn).run d = (.ok (parts.map Prod.snd), d) := by
  rcases parts?_cases hps with
    ⟨fields, hsh, rfl⟩ | ⟨family, element, parameters, length, hsh, rfl⟩
  · rw [Build.slotTypes, hsh, map_map]
    rfl
  · rw [Build.slotTypes, hsh, map_map]
    refine run_mapM_of_ok fun pos hpos ↦ ?_
    rw [element_of_shape hsh (mem_range.mp hpos)]
    rfl

/-- The gradient of a slot stands in its place, among zeros. -/
theorem Equipped.attains_spread (h : d.Equipped) (hnum : d.types.Numeric type)
    (hg : d.types.get? type = some defn) {pos : Nat} {slot : String}
    (hsl : defn.slotType? pos = some slot) (hgrad : d.Typed gradient slot) (op : Operator) :
    d.Attains (Build.spread op type pos gradient) False
      fun d' id ↦ d'.Typed id type := by
  obtain ⟨kind, hsh⟩ | ⟨parts, hps, hdeep⟩ := h.types.exists_parts hnum hg
  · rw [TypeDefinition.slotType?, hsh] at hsl
    cases hsl
  rw [slotType?_eq_parts hps, ← getElem?_map] at hsl
  refine Attains.after_ok (Attains.after_ok ?_ (run_slotTypes hps op)) (run_lookupType_of_some hg)
  refine (h.attains_mapM_typed Prod.fst fun e hen {d'} hl hequipped ↦ ?_).bind
    fun {ids d'} hl hs hids ↦ ?_
  · have hf := mem_zipIdx_iff_getElem?.mp hen
    dsimp only
    split
    next hpos =>
      rw [hpos, hsl] at hf
      exact attains_pure hequipped.sound (Option.some.inj hf ▸ hgrad.later hl)
    next =>
      refine hequipped.attains_constant (TypeTable.Numeric.extends ?_ hl.types) _
      obtain ⟨part, hp, hentryType⟩ := mem_map.mp (mem_of_getElem? hf)
      exact hentryType ▸ hdeep part hp
  · rw [zipIdx_map_fst] at hids
    obtain ⟨wider, hwd, hwn⟩ := hl.types.get? hg
    exact (h.later hl hs).attains_aggregate (hnum.extends hl.types) hwd (hwn.parts?.trans hps) hids

end Spreading

section Descents

variable {id base : NodeId} {path : AccessPath} {outer inner : String} {ids : List NodeId}

/-- The nodes lead from something of one type to a part of the other type. -/
inductive Way (d : Draft) (outer : String) : List NodeId → String → Prop
  | refl : Way d outer [] outer
  | part {ids : List NodeId} {t : String} {id : NodeId} {n : Node} {op : Operator}
      {args : List NodeId} (hway : Way d outer ids t)
      (hn : d.graph.node? id = some n)
      (hk : n.kind = .expression op args)
      (hsl : d.types.slotType? t op = some n.type) :
      Way d outer (ids ++ [id]) n.type

/-- The way to an address from an address that it is a part of. -/
theorem Locates.way (h : d.Locates id type path) {parts rest : List NodeId}
    (hlineage : d.graph.lineage id = parts ++ around :: rest) :
    ∃ outer slots, d.Locates around outer ⟨path.argument, slots⟩ ∧
      d.Way outer parts.reverse type := by
  induction h generalizing parts with
  | argument hn haddr hk =>
    rw [Graph.lineage_of_base_none hn (by rw [hk]; rfl)] at hlineage
    obtain - | ⟨part, parts⟩ := parts
    · cases hlineage
      exact ⟨_, _, .argument hn haddr hk, .refl⟩
    · simp at hlineage
  | part hba hsl hn haddr hk ih =>
    have hp := Graph.base?_of_projection hk (isProjection_of_slotType? hsl)
    rw [Graph.lineage_of_base hn hp] at hlineage
    obtain - | ⟨part, parts⟩ := parts
    · cases hlineage
      exact ⟨_, _, .part hba hsl hn haddr hk, .refl⟩
    · obtain ⟨rfl, hrs⟩ := cons.inj hlineage
      obtain ⟨outer, slots, haro, hway⟩ := ih hrs
      rw [reverse_cons]
      exact ⟨outer, slots, haro, .part hway hn hk hsl⟩

/-- A way can be followed from wherever one slot after the other can be taken. -/
theorem Way.attains_descend (hway : d.Way outer ids inner) (h : d.Equipped)
    (stands : Draft → NodeId → String → Prop)
    (hstep : ∀ {now : Draft} {base : NodeId} {t part : String} {op : Operator}
      {q : Request}, now.Equipped → stands now base t →
      now.types.slotType? t op = some part → SlotRequest op base q →
        now.Attains (Build.request q) False fun d' id ↦ stands d' id part)
    (hba : stands d base outer) :
    d.Attains (Build.descend base ids) False fun d' id ↦ stands d' id inner := by
  induction hway with
  | refl => exact attains_pure h.sound hba
  | @part ids t id n op args hway hn hk hsl ih =>
    rw [descend_append]
    refine ih.bind fun {m d'} hl hs hf ↦ ?_
    obtain ⟨q, hreq⟩ := exists_slotRequest (isProjection_of_slotType? hsl) m
    refine Attains.of_run (hstep (h.later hl hs) hf (hl.types.slotType? hsl) hreq) ?_
    rw [run_descend_part (hl.graph.node? hn) hk, hreq.rebuild_eq]

/-- What a proper address is a part of is proper. -/
theorem Proper.of_mem_lineage (h : d.Proper id)
    (haro : around ∈ d.graph.lineage id) : d.Proper around := by
  induction h with
  | @intro id n hn hty hops ih =>
    cases hba : n.kind.base? with
    | none =>
      rw [Graph.lineage_of_base_none hn hba, mem_singleton] at haro
      exact haro ▸ .intro hn hty hops
    | some base =>
      rw [Graph.lineage_of_base hn hba] at haro
      rcases mem_cons.mp haro with rfl | haro
      · exact .intro hn hty hops
      · exact ih base (NodeKind.base?_mem_operands hba) haro

theorem proper_argument {n : Node} {dir : Direction} (hn : d.graph.node? id = some n)
    (hk : n.kind = .argument name dir) (hnum : d.types.Numeric n.type) : d.Proper id := by
  refine .of_kind hn hnum hk (fun _ h ↦ by cases h) ?_
  exact forall_mem_nil _

/-- A slot of a proper address is a proper address. -/
theorem Equipped.attains_slot_place (h : d.Equipped) (hpl : d.Locates base t path)
    (hpro : d.Proper base) {op : Operator} {part : String}
    (hsl : d.types.slotType? t op = some part) {q : Request} (hreq : SlotRequest op base q) :
    d.Attains (Build.request q) False fun d' id ↦
      d'.Locates id part ⟨path.argument, op :: path.slots⟩ ∧ d'.Proper id := by
  obtain ⟨rest, hlim⟩ := h.exists_limit
  refine Attains.after_ok ?_ (run_get d)
  rw [hlim]
  exact h.attains_place hpl hpro hsl hreq (rest + 1)

/-- A proper address has a partner in the gradient of its argument. -/
theorem Equipped.attains_partnerAddress? (h : d.Equipped) (hpl : d.Locates id t path)
    (hpro : d.Proper id)
    (hlk : partners.lookup path.argument = some other) (hpairs : d.Pairs partners) :
    d.Attains (Build.partnerAddress? partners id) False fun d' m ↦
      ∃ partner, m = some partner ∧ d'.Locates partner t (path.within other) ∧
        d'.Proper partner := by
  obtain ⟨rootType, root, argument, hrt, harg⟩ := hpairs hlk
  obtain ⟨dir, hk⟩ := Graph.argumentOf?_eq_some_of_accessPath? hpl.accessPath?
  obtain ⟨top, htop, htopKind⟩ := Option.bind_eq_some_iff.mp hk
  obtain ⟨topNode, htopNode, htopArgument⟩ := Option.bind_eq_some_iff.mp htopKind
  obtain ⟨outer, slots, haro, hway⟩ := hpl.way (Graph.lineage_eq_of_root? htop)
  have hproperTop := hpro.of_mem_lineage (Graph.mem_lineage_of_root? htop)
  -- The way begins at the argument itself, which has the type of its partner.
  cases haro.accessPath?.symm.trans
    (Graph.accessPath?_of_argument htopNode (argument?_eq_some.mp htopArgument))
  obtain ⟨rfl, rfl⟩ := Locates.unique h.sound haro hrt
  obtain ⟨m, hf, ht, -⟩ := haro.node?
  have hnum : d.types.Numeric outer := ht ▸ (hproperTop.wellTyped hf).numeric
  have hpt : (Build.argument other).run d = (.ok argument, d) ∧ d.Proper argument := by
    cases harg with
    | argument hn _ hk =>
      exact ⟨run_argument (h.sound.lookup_iff.mpr ⟨_, _, hn, hk⟩), proper_argument hn hk hnum⟩
  have hdescend : d.Attains (Build.descend argument
      (d.graph.lineage id).dropLast.reverse) False fun d' m ↦
        d'.Proper m ∧ ∃ way, d'.Locates m t way := by
    refine hway.attains_descend h (fun now id t ↦ now.Proper id ∧ ∃ way, now.Locates id t way)
      (fun hnow hba hsl hreq ↦ ?_) ⟨hpt.2, _, harg⟩
    obtain ⟨hpro, way, hpl⟩ := hba
    exact (hnow.attains_slot_place hpl hpro hsl hreq).mono (fun hfl ↦ hfl)
      fun _ _ hp ↦ ⟨hp.2, _, hp.1⟩
  obtain ⟨partner, d', hr, hgr, haf, hproperPartner, -⟩ := hdescend.exists_ok
  have hpartnerRun : (Build.partnerAddress? partners id).run d = (.ok (some partner), d') := by
    rw [partnerAddress?, run_get_bind]
    dsimp only
    rw [← Graph.argumentOf?, hk]
    dsimp only
    rw [hlk]
    dsimp only
    rw [run_bind_of_ok hpt.1, run_bind_of_ok hr]
    rfl
  obtain ⟨_, hsame, hplaced, -⟩ := hpl.ok_of_run_partnerAddress? h.sound hlk hrt harg hpartnerRun
  cases hsame
  exact .inl ⟨_, d', hpartnerRun, hgr, haf, partner, rfl, hplaced, hproperPartner⟩

/-- A proper address has a partner if its argument has one. -/
theorem Equipped.attains_partner? (h : d.Equipped) (hpl : d.Locates id t path)
    (hpro : d.Proper id) (hpairs : d.Pairs partners) :
    d.Attains (Build.partnerAddress? partners id) False fun d' m ↦
      ∀ partner, m = some partner → d'.Proper partner ∧
        ∃ other, partners.lookup path.argument = some other ∧
          d'.Locates partner t (path.within other) := by
  cases hlk : partners.lookup path.argument with
  | none =>
    refine attains_of_ok h.sound (hpl.run_partnerAddress?_none hlk) ?_
    intro partner hpt
    cases hpt
  | some other =>
    refine (h.attains_partnerAddress? hpl hpro hlk hpairs).mono
      (fun hfl ↦ hfl) fun _ _ hf partner hpt ↦ ?_
    obtain ⟨m, hsame, hplaced, hproperPartner⟩ := hf
    cases hsame.symm.trans hpt
    exact ⟨hproperPartner, other, rfl, hplaced⟩

end Descents

end Draft

end DiffGraph
