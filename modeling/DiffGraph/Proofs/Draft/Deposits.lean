import DiffGraph.Proofs.Draft.Gradients

/-!
Where gradients go. What has arrived at the read of an address in the end is written to the same part
of the gradient of the argument, unless it is zero (`Deposited.run`). The gradients of different
arguments are different arguments of the adjoint, so the writes do not get into each other's way.
-/

set_option autoImplicit false

namespace DiffGraph

open List Stateful Option Reverse

variable {path way : AccessPath} {other t : String} {d draft : Draft} {prec : Precision}
  {order : Array NodeId} {effective' : Bindings}

/-- No argument is the gradient of two arguments. -/
def Partners.Distinct (partners : Partners) : Prop :=
  ∀ ⦃name name' other : String⦄, partners.lookup name = some other →
    partners.lookup name' = some other → name = name'

theorem Partners.Distinct.within_ne {partners : Partners} (h : Partners.Distinct partners)
    {found : String} (hlk : partners.lookup path.argument = some other)
    (hf : partners.lookup way.argument = some found) (hne : path ≠ way) :
    path.within other ≠ way.within found := by
  intro heq
  obtain ⟨hsame, hslots⟩ := AccessPath.mk.inj heq
  obtain ⟨name, slots⟩ := path
  obtain ⟨name', slots'⟩ := way
  exact hne (congrArg₂ AccessPath.mk (h hlk (hsame ▸ hf)) hslots)

theorem Options.gradientName_injective (options : Options) :
    Function.Injective options.gradientName :=
  fun _ _ h ↦ (String.append_left_inj _).mp h

namespace Draft

/-- The value that a node writes to the place, if it writes to it. -/
def valueAt? (d : Draft) (path : AccessPath) (id : NodeId) : Option NodeId :=
  (d.graph.node? id).bind fun n ↦
    match n.kind with
    | .write addr v =>
      if d.graph.accessPath? addr = some path then some v else none
    | _ => none

/-- The values that are written to the place. -/
def valuesAt (d : Draft) (path : AccessPath) : List NodeId :=
  d.writes.filterMap (d.valueAt? path)

/-- What is left at the place, and zero where nothing is written. -/
def outputAt {α : Type} [Zero α] (d : Draft) (model : Model α) (path : AccessPath) : α :=
  (d.valuesAt path).getLast?.elim 0 (d.graph.denote model)

section Values

variable {d' after : Draft} {id addr address v value : NodeId} {n node : Node}

theorem valueAt?_of_write (hn : d.graph.node? id = some n)
    (hk : n.kind = .write addr v) (hpath : d.graph.accessPath? addr = some way)
    (path : AccessPath) : d.valueAt? path id = if way = path then some v else none := by
  rw [valueAt?, hn, bind_some, hk]
  simp only [hpath, some.injEq]

theorem Sound.valueAt?_later (hs : d.Sound) (hl : d.Precedes d')
    (hid : id ∈ d.writes) (path : AccessPath) :
    d'.valueAt? path id = d.valueAt? path id := by
  obtain ⟨n, address, v, hn, hk⟩ := hs.writes hid
  have how : d.graph.Owns address := Graph.owns_operand hn (Node.mem_operands hk mem_cons_self)
  rw [valueAt?, valueAt?, hn, hl.graph.node? hn, bind_some, bind_some, hk]
  simp only [Graph.accessPath?_extends hl.graph how]

theorem Sound.valuesAt_grows (hs : d.Sound) (hgr : d.Grows d')
    (path : AccessPath) : d'.valuesAt path = d.valuesAt path := by
  rw [valuesAt, valuesAt, hgr.same_writes]
  exact filterMap_congr fun id hid ↦ hs.valueAt?_later hgr.toPrecedes hid path

/-- The first write to a place. -/
theorem Locates.valuesAt_of_run_write (hpl : d.Locates addr t way)
    (hs : d.Sound) (hv : d.HoldsValue v t) (hfr : d.valuesAt way = [])
    (hr : (Build.write addr (.node v)).run d = (.ok id, d')) (path : AccessPath) :
    d'.valuesAt path = if way = path then [v] else d.valuesAt path := by
  obtain ⟨tgt, htg, rfl, haddr⟩ := hpl.node?
  obtain ⟨owned, rfl, hgraph, hws⟩ := ok_of_run_write htg haddr hv hr
  have hl := (Build.write_leads _ _ _).precedes hr hs
  obtain ⟨n, hn, -, hk⟩ := @Graph.node?_intern _ tgt.type _ false hs.interned owned
  rw [← hgraph] at hn
  have hf := valueAt?_of_write hn hk (hpl.later hl).accessPath?
  have hnew : (d.graph.intern tgt.type (.write addr v) false owned).1 ∉ d.writes := by
    intro hls
    have hm : v ∈ d.valuesAt way := by
      refine mem_filterMap.mpr ⟨_, hls, ?_⟩
      rw [← hs.valueAt?_later hl hls, hf, if_pos rfl]
    rw [hfr] at hm
    exact absurd hm not_mem_nil
  have hold : d.writes.filterMap (d'.valueAt? path) = d.valuesAt path :=
    filterMap_congr fun other ho ↦ hs.valueAt?_later hl ho path
  rw [valuesAt, hws, if_neg (fun hls ↦ hnew (contains_iff_mem.mp hls)),
    filterMap_append, hold, filterMap_cons, filterMap_nil, hf]
  by_cases hway : way = path
  · subst hway
    rw [if_pos rfl, if_pos rfl, hfr]
    rfl
  · rw [if_neg hway, if_neg hway, append_nil]

end Values

/-- What a number is a part of is not a number. -/
theorem Locates.not_number_of_mem_tail {id around : NodeId}
    (h : d.Locates id t path) (haro : around ∈ (d.graph.lineage id).tail)
    (hsup : d.Supports prec) : ¬ d.Locates around prec.type way := by
  intro hpl
  obtain ⟨tgt, op, part, htg, hsl⟩ := h.slotType?_of_mem_tail haro
  obtain ⟨m, hf, ht, -⟩ := hpl.node?
  cases htg.symm.trans hf
  rw [ht, hsup.slotType?] at hsl
  cases hsl

section Reads

variable {deposits : Partners}

/-- The reads of addresses whose arguments have gradients. -/
theorem mem_bearingReads {e : NodeId × NodeId} : e ∈ Reverse.bearingReads deposits d.graph order ↔
      e.1 ∈ order ∧ ∃ n name dir, d.graph.node? e.1 = some n ∧
        n.kind = .read e.2 ∧ d.graph.argumentOf? e.2 = some (name, dir) ∧
          (deposits.lookup name).isSome = true := by
  unfold Reverse.bearingReads
  rw [mem_mergeSort, mem_filterMap]
  constructor
  · rintro ⟨id, hid, hen⟩
    split at hen
    next addr hk =>
      obtain ⟨n, hn, hk⟩ := map_eq_some_iff.mp hk
      split at hen
      next name dir harg =>
        split at hen
        next hlk =>
          obtain rfl := some.inj hen
          exact ⟨Array.mem_def.mpr hid, n, name, dir, hn, hk, harg, hlk⟩
        · cases hen
      · cases hen
    · cases hen
  · rintro ⟨hid, n, name, dir, hn, hk, harg, hlk⟩
    refine ⟨e.1, Array.mem_def.mp hid, ?_⟩
    rw [Graph.argumentOf?] at harg
    simp only [hn, map_some, hk, harg, hlk, if_true]

/-- There is one read of each address. -/
theorem Sound.nodup_bearingReads (hs : d.Sound) (hnd : order.toList.Nodup) :
    ((Reverse.bearingReads deposits d.graph order).map Prod.snd).Nodup := by
  refine Nodup.map_on (fun first hfst second hsnd haddr ↦ ?_) ?_
  · obtain ⟨-, n, -, -, hn, hk, -⟩ := mem_bearingReads.mp hfst
    obtain ⟨-, other, -, -, ho, hotherKind, -⟩ := mem_bearingReads.mp hsnd
    rw [← haddr] at hotherKind
    obtain ⟨-, tgt, htg, -, ht⟩ := hs.read hn hk
    obtain ⟨-, m, hf, -, hfoundType⟩ := hs.read ho hotherKind
    cases htg.symm.trans hf
    exact Prod.ext (hs.interned.eq_of_contents hn ho (ht.symm.trans hfoundType)
      (hk.trans hotherKind.symm)) haddr
  · unfold Reverse.bearingReads
    refine (mergeSort_perm _ _).nodup_iff.mpr (hnd.filterMap fun id id' e hid hid' ↦ ?_)
    grind

end Reads

end Draft

namespace Setting

open Draft

variable {F : Type} [Field F] (S : Setting F) (deposits : Partners)

/-- The number is written to the place, or it is zero and nothing is written there. -/
def Lands (d : Draft) (path : AccessPath) (x : F) : Prop :=
  d.valuesAt path = [] ∧ x = 0 ∨ ∃ v, d.valuesAt path = [v] ∧ S.value v = x

/-- What has arrived at the reads that were dealt with was written. -/
structure Deposited (start : Sweep) (entries : List (NodeId × NodeId)) (effective : Bindings)
    (sw : Sweep) : Prop where
  holds : S.Holds sw
  precedes : start.draft.Precedes sw.draft
  gathered : sw.draft.Precedes S.last → ∀ id,
    S.gathered sw.accumulator id = S.gathered start.accumulator id
  places : ∀ e ∈ entries, ∃ t path, sw.draft.Locates e.2 t path
  numbers : ∀ ⦃around : NodeId⦄, effective.contains around = true →
    ∃ prec path, sw.draft.Supports prec ∧
      sw.draft.Locates around prec.type path
  untouched : ∀ ⦃path : AccessPath⦄ ⦃other : String⦄, deposits.lookup path.argument = some other →
    (∀ e ∈ entries, ∀ t, ¬ sw.draft.Locates e.2 t path) →
      sw.draft.valuesAt (path.within other) = []
  landed : sw.draft.Precedes S.last → ∀ e ∈ entries, ∀ ⦃path : AccessPath⦄
    ⦃t other : String⦄, sw.draft.Locates e.2 t path →
      deposits.lookup path.argument = some other →
        S.Lands sw.draft (path.within other) (S.gathered start.accumulator e.1)

variable {S deposits} {start sw sweep d' after : Sweep} {entries : List (NodeId × NodeId)}
  {effective : Bindings} {read addr address gradient : NodeId}

section

variable (h : S.Deposited deposits start entries effective sw)

include h

/-- The gradient of a number is its own total. -/
theorem Deposited.ok_of_run_effectiveGradient (hsup : sw.draft.Supports prec)
    (hpl : sw.draft.Locates addr prec.type path) (hrd : sw.draft.HasType read prec.type)
    (hr : (Reverse.effectiveGradient effective read addr).run sw = (.ok gradient, d')) :
    (Reverse.total read).run sw = (.ok gradient, d') := by
  obtain ⟨own, middle, htot, hrs⟩ := ok_of_run_bind hr
  obtain ⟨-, hrests, -⟩ := h.holds.total hsup hrd htot
  have hl := hrests.grows.toPrecedes
  obtain ⟨m, s, hg, hmatch⟩ := ok_of_run_bind hrs
  obtain ⟨rfl, rfl⟩ := ok_of_run_get hg
  have hno : (s.draft.graph.lineage addr).tail.findIdx?
      (fun around ↦ effective.contains around) = none := by
    refine findIdx?_eq_none_iff.mpr fun around haro ↦ ?_
    rw [Graph.lineage_extends hl.graph hpl.owns] at haro
    refine Bool.eq_false_iff.mpr fun hkn ↦ ?_
    obtain ⟨other, way, ho, hway⟩ := h.numbers hkn
    exact hpl.not_number_of_mem_tail haro ho hway
  dsimp only at hmatch
  rw [hno] at hmatch
  obtain ⟨rfl, rfl⟩ := ok_of_run_pure hmatch
  exact htot

theorem Deposited.rests (haf : S.Holds after) (hrests : S.Rests sw after) :
    S.Deposited deposits start entries effective after := by
  have hl := hrests.grows.toPrecedes
  have hvs := h.holds.sound.valuesAt_grows hrests.grows
  refine ⟨haf, h.precedes.trans hl, fun hla id ↦ ?_, fun e hen ↦ ?_,
    fun around haro ↦ ?_, fun path other hlk hno ↦ ?_,
    fun hla e hen path t other hpl hlk ↦ ?_⟩
  · rw [hrests.gathered hla, h.gathered (hl.trans hla)]
  · obtain ⟨t, path, hpl⟩ := h.places e hen
    exact ⟨t, path, hpl.later hl⟩
  · obtain ⟨prec, path, hsup, hpl⟩ := h.numbers haro
    exact ⟨prec, path, hsup.later hl, hpl.later hl⟩
  · rw [hvs]
    exact h.untouched hlk fun e hen t hpl ↦ hno e hen t (hpl.later hl)
  · obtain ⟨k, way, hway⟩ := h.places e hen
    obtain rfl := some.inj ((hway.later hl).accessPath?.symm.trans hpl.accessPath?)
    rw [Lands, hvs]
    exact h.landed (hl.trans hla) e hen hway hlk

/-- One more read is dealt with: what has arrived at it lands, and all else stays. -/
theorem Deposited.add
    (hdistinct : Partners.Distinct deposits) (hsup : sw.draft.Supports prec)
    (hpl : sw.draft.Locates addr prec.type path)
    (hlk : deposits.lookup path.argument = some other) (hfr : addr ∉ entries.map Prod.snd)
    (haf : S.Holds after) (hl : sw.draft.Precedes after.draft)
    (haccumulator : after.accumulator = sw.accumulator)
    (hvs : ∀ way, path.within other ≠ way → after.draft.valuesAt way = sw.draft.valuesAt way)
    (hlands : after.draft.Precedes S.last → S.Lands after.draft (path.within other) (S.gathered start.accumulator read)) :
    S.Deposited deposits start (entries ++ [(read, addr)]) (effective.insert addr gradient)
      after := by
  have hplace' := hpl.later hl
  refine ⟨haf, h.precedes.trans hl, fun hla id ↦ ?_, ?_, fun around haro ↦ ?_,
    fun way m hf hno ↦ ?_, fun hla ↦ ?_⟩
  · rw [haccumulator, h.gathered (hl.trans hla)]
  · refine forall_mem_append.mpr ⟨fun e hen ↦ ?_, forall_mem_singleton.mpr ?_⟩
    · obtain ⟨t, way, hway⟩ := h.places e hen
      exact ⟨t, way, hway.later hl⟩
    · exact ⟨_, path, hplace'⟩
  · rw [Std.HashMap.contains_insert, Bool.or_eq_true] at haro
    rcases haro with heq | haro
    · obtain rfl := eq_of_beq heq
      exact ⟨prec, path, hsup.later hl, hplace'⟩
    · obtain ⟨k, way, hkn, hway⟩ := h.numbers haro
      exact ⟨k, way, hkn.later hl, hway.later hl⟩
  · obtain ⟨hos, hla⟩ := forall_mem_append.mp hno
    have hne : path ≠ way := by
      rintro rfl
      exact forall_mem_singleton.mp hla _ hplace'
    rw [hvs _ (hdistinct.within_ne hlk hf hne)]
    exact h.untouched hf fun e hen t hway ↦ hos e hen t (hway.later hl)
  · refine forall_mem_append.mpr ⟨fun e hen way t m hway hf ↦ ?_,
      forall_mem_singleton.mpr fun way t m hway hf ↦ ?_⟩
    · obtain ⟨k, path', hkn⟩ := h.places e hen
      obtain rfl := some.inj ((hkn.later hl).accessPath?.symm.trans hway.accessPath?)
      have hne : path ≠ path' := by
        rintro rfl
        exact hfr ((hpl.unique h.holds.sound hkn).1 ▸ mem_map_of_mem hen)
      rw [Lands, hvs _ (hdistinct.within_ne hlk hf hne)]
      exact h.landed (hl.trans hla) e hen hkn hf
    · cases hplace'.accessPath?.symm.trans hway.accessPath?
      cases hlk.symm.trans hf
      exact hlands hla

end

/-- The gradient of a number is written to its place, unless it is zero. -/
theorem Deposited.step (h : S.Deposited deposits start entries effective sweep)
    (hdistinct : Partners.Distinct deposits) (hpairs : sweep.draft.Pairs deposits)
    (hsup : sweep.draft.Supports prec) (hpl : sweep.draft.Locates addr prec.type path)
    (hrd : sweep.draft.HasType read prec.type)
    (hlk : deposits.lookup path.argument = some other) (hfr : addr ∉ entries.map Prod.snd)
    (hr : (Reverse.depositRead deposits effective (read, addr)).run sweep = (.ok effective', after)) :
    S.Deposited deposits start (entries ++ [(read, addr)]) effective' after := by
  obtain ⟨gradient, middle, heffective, hrs⟩ := ok_of_run_bind hr
  have htot := h.ok_of_run_effectiveGradient hsup hpl hrd heffective
  obtain ⟨hmid, hrests, htm, -, hv⟩ := h.holds.total hsup hrd htot
  have hl := hrests.grows.toPrecedes
  have hdeposited := h.rests hmid hrests
  have hsupports' := hsup.later hl
  have hplace' := hpl.later hl
  -- The place of the gradient is free: the address was not read before.
  have hfree : middle.draft.valuesAt (path.within other) = [] := by
    refine hdeposited.untouched hlk fun entry hen type hway ↦ hfr ?_
    exact (hplace'.unique hmid.sound hway).1 ▸ mem_map_of_mem hen
  have hv (hla : middle.draft.Precedes S.last) :
      S.value gradient = S.gathered start.accumulator read :=
    (hv hla).trans (h.gathered (hl.trans hla) read)
  obtain ⟨node, hn, -⟩ := htm.holdsValue
  rw [run_bind_of_ok (run_onDraft (Build.run_isZero hn))] at hrs
  split at hrs
  next hz =>
    obtain ⟨rfl, rfl⟩ := ok_of_run_pure hrs
    refine hdeposited.add hdistinct hsupports' hplace' hlk hfr hmid (.refl _) rfl
      (fun _ _ ↦ rfl) fun hla ↦ .inl ⟨hfree, ?_⟩
    rw [← hv hla, value, Graph.denote_extends hla.graph htm.holdsValue.owns]
    exact htm.denote_of_isNeutral hmid.sound hsupports'.calculates S.interpretation.lawful hz
  next =>
    obtain ⟨found, s, hpt, hmatch⟩ := ok_of_run_bind hrs
    obtain ⟨draft, hd, rfl⟩ := ok_of_run_onDraft hpt
    obtain ⟨type, root, argument, hrt, harg⟩ := hpairs hlk
    obtain ⟨partner, rfl, hp, hws⟩ := hplace'.ok_of_run_partnerAddress? hmid.sound hlk
      (hrt.later hl) (harg.later hl) hd
    obtain ⟨id, s, honDraft, hret⟩ := ok_of_run_bind hmatch
    obtain ⟨written, hw, rfl⟩ := ok_of_run_onDraft honDraft
    obtain ⟨rfl, rfl⟩ := ok_of_run_pure hret
    have hld := (Build.enlarges (·.partnerAddress? deposits addr) middle.draft).leads
    have hgr : middle.draft.Grows draft := ⟨hld.precedes hd hmid.sound, hws⟩
    have hs := hld.sound hd hmid.sound
    have hwriting := Build.write_leads partner (.node gradient) draft
    have hvs := hp.valuesAt_of_run_write hs (htm.later hgr.toPrecedes).holdsValue
      ((hmid.sound.valuesAt_grows hgr _).trans hfree) hw
    have haf := hgr.toPrecedes.trans (hwriting.precedes hw hs)
    refine hdeposited.add hdistinct hsupports' hplace' hlk hfr
      (hmid.onDraft haf (hwriting.sound hw hs)) haf rfl (fun way hway ↦ ?_)
      fun hla ↦ .inr ⟨gradient, ?_, hv (haf.trans hla)⟩
    · rw [hvs, if_neg hway, hmid.sound.valuesAt_grows hgr]
    · rw [hvs, if_pos rfl]

/-- The read of a number from an address that has a gradient. -/
def Bears (deposits : Partners) (d : Draft) (e : NodeId × NodeId) : Prop :=
  ∃ prec path other, d.Supports prec ∧ d.Locates e.2 prec.type path ∧
    d.HasType e.1 prec.type ∧ deposits.lookup path.argument = some other

theorem Bears.later {newer : Draft} {entry : NodeId × NodeId} (h : Bears deposits d entry)
    (hl : d.Precedes newer) : Bears deposits newer entry := by
  obtain ⟨prec, path, other, hsup, hpl, hrd, hlk⟩ := h
  exact ⟨prec, path, other, hsup.later hl, hpl.later hl, hrd.later hl, hlk⟩

/-- All reads are dealt with in turn. -/
theorem Deposited.run (h : S.Deposited deposits start entries effective sw)
    (hdistinct : Partners.Distinct deposits) (hpairs : start.draft.Pairs deposits)
    {rest : List (NodeId × NodeId)} (hrs : ∀ e ∈ rest, Bears deposits start.draft e)
    (hnd : ((entries ++ rest).map Prod.snd).Nodup)
    (hr : (rest.foldlM (Reverse.depositRead deposits) effective).run sw = (.ok effective', after)) :
    S.Deposited deposits start (entries ++ rest) effective' after := by
  induction rest generalizing entries effective sw with
  | nil =>
    obtain ⟨rfl, rfl⟩ := ok_of_run_pure hr
    rwa [append_nil]
  | cons e rest ih =>
    obtain ⟨hen, hos⟩ := forall_mem_cons.mp hrs
    obtain ⟨prec, path, other, hsup, hpl, hrd, hlk⟩ := hen.later h.precedes
    obtain ⟨next, middle, hstep, hla⟩ := ok_of_run_foldlM_cons hr
    have hfr : e.2 ∉ entries.map Prod.snd := by
      rw [map_append, map_cons] at hnd
      exact fun hls ↦ disjoint_of_nodup_append hnd hls mem_cons_self
    have hmid := h.step hdistinct (hpairs.later h.precedes) hsup hpl hrd hlk hfr hstep
    rw [append_cons] at hnd ⊢
    exact ih hmid hos hnd hla

/-- What has arrived at the reads is written to the gradients of their arguments. -/
theorem Holds.deposit (h : S.Holds sweep) (hdistinct : Partners.Distinct deposits)
    (hpairs : sweep.draft.Pairs deposits) (hnd : order.toList.Nodup)
    (hnum : ∀ id ∈ order, sweep.draft.Numeric id)
    (hfree : ∀ ⦃path : AccessPath⦄ ⦃other : String⦄, deposits.lookup path.argument = some other → sweep.draft.valuesAt (path.within other) = [])
    (hr : (Reverse.deposit deposits order).run sweep = (.ok ⟨⟩, after)) :
    ∃ effective, S.Deposited deposits sweep
      (Reverse.bearingReads deposits sweep.draft.graph order) effective after := by
  have hsta : S.Deposited deposits sweep [] ∅ sweep := ⟨h, .refl _, fun _ _ ↦ rfl, forall_mem_nil _,
      fun _ hno ↦ absurd hno (by simp), fun _ _ hlk _ ↦ hfree hlk,
      fun _ _ hno ↦ absurd hno not_mem_nil⟩
  have hbears : ∀ entry ∈ Reverse.bearingReads deposits sweep.draft.graph order,
      Bears deposits sweep.draft entry := by
    intro entry hen
    obtain ⟨hid, n, name, dir, hn, hk, harg, hlk⟩ := mem_bearingReads.mp hen
    obtain ⟨hrd, tgt, htg, haddr, ht⟩ := h.sound.read hn hk
    obtain ⟨path, hpl⟩ := h.sound.exists_place htg haddr
    obtain ⟨prec, hsup, -, hnb⟩ := (hnum entry.1 hid).term hn hrd (by rw [Node.isWrite, hk])
    rw [ht, hnb] at hpl
    obtain ⟨own, hown⟩ := Graph.argumentOf?_eq_some_of_accessPath? hpl.accessPath?
    obtain ⟨rfl, rfl⟩ := Prod.mk.inj (some.inj (harg.symm.trans hown))
    obtain ⟨other, hlk⟩ := isSome_iff_exists.mp hlk
    exact ⟨prec, path, other, hsup, hpl, ⟨n, hn, hnb⟩, hlk⟩
  rw [run_deposit] at hr
  obtain ⟨effective, s, hfold, hret⟩ := ok_of_run_bind hr
  obtain ⟨-, rfl⟩ := ok_of_run_pure hret
  exact ⟨effective, hsta.run hdistinct hpairs hbears (h.sound.nodup_bearingReads hnd) hfold⟩

/-- What lands at the gradient of an address is what has arrived at the read of the address. -/
theorem Deposited.lands
    (h : S.Deposited deposits start (Reverse.bearingReads deposits start.draft.graph order) effective sw)
    (hs : start.draft.Sound) (hla : sw.draft.Precedes S.last)
    (hlk : deposits.lookup path.argument = some other) {x : F}
    (hrd : ∀ ⦃id addr : NodeId⦄ ⦃n : Node⦄ ⦃t : String⦄, id ∈ order → start.draft.graph.node? id = some n → n.kind = .read addr → start.draft.Locates addr t path → S.gathered start.accumulator id = x)
    (hno : (∀ ⦃id addr : NodeId⦄ ⦃n : Node⦄ ⦃t : String⦄, id ∈ order → start.draft.graph.node? id = some n → n.kind = .read addr → ¬ start.draft.Locates addr t path) → x = 0) :
    S.Lands sw.draft (path.within other) x := by
  by_cases hbears : ∃ e ∈ Reverse.bearingReads deposits start.draft.graph order, ∃ t,
      sw.draft.Locates e.2 t path
  · obtain ⟨e, hen, t, hpl⟩ := hbears
    obtain ⟨hid, n, -, -, hn, hk, -⟩ := mem_bearingReads.mp hen
    obtain ⟨-, tgt, htg, -⟩ := hs.read hn hk
    rw [← hrd hid hn hk (hpl.earlier hs h.precedes (Graph.owns_of_node? htg))]
    exact h.landed hla e hen hpl hlk
  · refine .inl ⟨h.untouched hlk fun e hen t hpl ↦ hbears ⟨e, hen, t,
      hpl⟩, hno fun id addr n t hid hn hk hpl ↦ hbears ?_⟩
    obtain ⟨dir, harg⟩ := Graph.argumentOf?_eq_some_of_accessPath? hpl.accessPath?
    refine ⟨(id, addr), mem_bearingReads.mpr ⟨hid, n, path.argument, dir, hn, hk,
      harg, isSome_iff_exists.mpr ⟨other, hlk⟩⟩, t, hpl.later h.precedes⟩

theorem Lands.outputAt_eq {x : F} (h : S.Lands S.last path x) :
    S.last.outputAt S.interpretation.model path = x := by
  rcases h with ⟨hno, rfl⟩ | ⟨v, hv, rfl⟩
  · rw [outputAt, hno]
    rfl
  · rw [outputAt, hv]
    rfl

end Setting

end DiffGraph
