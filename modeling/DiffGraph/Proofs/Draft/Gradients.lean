import Mathlib.Data.List.Perm.Basic
import DiffGraph.Proofs.Draft.Backpropagation

/-!
Where gradients come from. The arguments of an adjoint are those of its function and their gradients,
which have names of their own. The gradient of a written address is read from the same part of the
gradient argument and pushed to the address, once (`Seeded.run`).
-/

set_option autoImplicit false

namespace DiffGraph

open List Stateful Option Build Reverse

variable {name other t type : String} {now : Draft} {dir direction : Direction} {path : AccessPath}
  {addresses' : List NodeId} {addr id : NodeId}

namespace Draft

section Names

variable (d : Draft) (excluded : List String)

/-- The arguments that are not excluded have gradients. -/
theorem lookup_gradients {entries : List (String × String)} {f : String → String} :
    ((entries.filter fun entry ↦ !excluded.contains entry.1).map fun entry ↦
      (entry.1, f entry.1)).lookup name = some other ↔
      other = f name ∧ name ∉ excluded ∧ ∃ type, (name, type) ∈ entries := by
  induction entries with
  | nil => simp
  | cons entry entries ih =>
    obtain ⟨first, type⟩ := entry
    by_cases hexcluded : first ∈ excluded
    · rw [filter_cons_of_neg (by simpa using hexcluded), ih]
      refine and_congr_right fun _ ↦ and_congr_right fun hnm ↦ ?_
      have hne : name ≠ first := fun h ↦ hnm (h ▸ hexcluded)
      simp [hne]
    · rw [filter_cons_of_pos (by simpa using hexcluded), map_cons, lookup_cons]
      by_cases hnm : name = first
      · subst hnm
        simp [hexcluded, eq_comm]
      · rw [beq_false_of_ne hnm]
        dsimp only
        rw [ih]
        simp [hnm]

theorem lookup_seeds : (d.gradientNames excluded).seeds.lookup name = some other ↔
      other = d.options.gradientName name ∧ name ∉ excluded ∧
        ∃ t, (name, t) ∈ d.argumentsOf .update ++ d.argumentsOf .output := by
  rw [← lookup_gradients, filter_append, map_append]
  rfl

theorem lookup_deposits : (d.gradientNames excluded).deposits.lookup name = some other ↔
      other = d.options.gradientName name ∧ name ∉ excluded ∧
        ∃ t, (name, t) ∈ d.argumentsOf .input ++ d.argumentsOf .update := by
  rw [← lookup_gradients, filter_append, map_append]
  rfl

/-- The arguments of the adjoint are those of the function and the gradients of some of them. -/
theorem adjointArguments_perm : ((d.adjointArguments excluded).map Prod.fst).Perm
    ((d.argumentsOf .output ++ d.argumentsOf .update ++ d.argumentsOf .input).map
      Prod.fst ++
    ((d.argumentsOf .input ++ d.argumentsOf .update ++ d.argumentsOf .output).filter
      fun entry ↦ !excluded.contains entry.1).map fun entry ↦ d.options.gradientName entry.1) := by
  have hpartners (dir : Direction) (entries : List (String × String)) :
      (entries.flatMap fun entry ↦ if excluded.contains entry.1 then []
        else [(d.options.gradientName entry.1, entry.2, dir)]).map Prod.fst =
      (entries.filter fun entry ↦ !excluded.contains entry.1).map fun entry ↦
        d.options.gradientName entry.1 := by
    induction entries with
    | nil => rfl
    | cons entry entries ih =>
      rw [flatMap_cons, map_append, ih, filter_cons]
      cases excluded.contains entry.1 <;> rfl
  have hown (dir : Direction) (entries : List (String × String)) :
      (entries.map fun entry ↦ (entry.1, entry.2, dir)).map Prod.fst =
        entries.map Prod.fst := map_map
  have hupdates := ((d.argumentsOf .update).map_append_flatMap_perm
    (fun entry ↦ (entry.1, entry.2, Direction.update)) (fun entry ↦
      if excluded.contains entry.1 then []
      else [(d.options.gradientName entry.1, entry.2, Direction.update)])).map Prod.fst
  rw [map_append, hown, hpartners] at hupdates
  refine perm_iff_count.mpr fun name ↦ ?_
  have hcount := perm_iff_count.mp hupdates name
  simp only [adjointArguments, map_append, hown, hpartners, count_append, filter_append] at hcount ⊢
  omega

variable {d excluded}

/-- A draft with the arguments of the adjoint. -/
structure Declares (d : Draft) (ex : List String) (now : Draft) : Prop where
  arguments : ∀ e ∈ d.adjointArguments ex, ∃ id, now.Locates id e.2.1 ⟨e.1, []⟩
  nodup : ((d.adjointArguments ex).map Prod.fst).Nodup

theorem Declares.later {after : Draft} (h : d.Declares excluded now)
    (hl : now.Precedes after) : d.Declares excluded after := by
  refine ⟨fun e hen ↦ ?_, h.nodup⟩
  obtain ⟨id, hpl⟩ := h.arguments e hen
  exact ⟨id, hpl.later hl⟩

/-- Every argument belongs to one of the directions. -/
theorem mem_of_mem_argumentsOf {e : String × String} (h : e ∈ d.argumentsOf dir) :
    e ∈ d.argumentsOf .output ++ d.argumentsOf .update ++ d.argumentsOf .input := by
  cases dir <;> simp [h]

/-- What an address is a part of is an argument. -/
theorem Sound.exists_mem_argumentsOf (hs : d.Sound)
    (h : d.graph.argumentOf? id = some (name, direction)) :
    ∃ t, (name, t) ∈ d.argumentsOf direction := by
  obtain ⟨root, -, hrt⟩ := bind_eq_some_iff.mp h
  obtain ⟨n, hn, harg⟩ := bind_eq_some_iff.mp hrt
  exact ⟨n.type, hs.mem_argumentsOf hn (argument?_eq_some.mp harg)⟩

/-- A gradient is not one of the function's own arguments. -/
theorem Declares.gradientName_ne (h : d.Declares excluded now) {otherType : String}
    {otherDirection : Direction} (hnm : (name, t) ∈ d.argumentsOf dir)
    (hincluded : name ∉ excluded) (ho : (other, otherType) ∈ d.argumentsOf otherDirection) :
    d.options.gradientName name ≠ other := by
  have hdisjoint := disjoint_of_nodup_append
    ((d.adjointArguments_perm excluded).nodup_iff.mp h.nodup)
  rintro rfl
  refine hdisjoint (mem_map.mpr ⟨_, mem_of_mem_argumentsOf ho, rfl⟩)
    (mem_map.mpr ⟨(name, t), mem_filter.mpr ⟨?_, by simpa using hincluded⟩, rfl⟩)
  cases dir <;> simp [hnm]

/-- The gradient of an argument is an argument of the adjoint, and an input only for an output. -/
theorem gradientName_mem_adjointArguments (h : (name, type) ∈ d.argumentsOf dir)
    (hincluded : name ∉ excluded) :
    ∃ own, (own = .input → dir = .output) ∧
      (d.options.gradientName name, type, own) ∈ d.adjointArguments excluded := by
  have hpt (own : Direction) : (d.options.gradientName name, type, own) ∈
      if excluded.contains name then []
      else [(d.options.gradientName name, type, own)] := by
    rw [if_neg (by simpa using hincluded)]
    exact mem_singleton_self _
  unfold adjointArguments
  cases dir with
  | input =>
    refine ⟨.output, (fun hinput ↦ by cases hinput), mem_append_left _ (mem_append_left _
      (mem_append_left _ (mem_append_right _ ?_)))⟩
    exact mem_flatMap.mpr ⟨_, h, hpt .output⟩
  | update =>
    refine ⟨.update, (fun hinput ↦ by cases hinput), mem_append_left _ (mem_append_left _
      (mem_append_right _ ?_))⟩
    exact mem_flatMap.mpr ⟨_, h, mem_cons_of_mem _ (hpt .update)⟩
  | output =>
    refine ⟨.input, fun _ ↦ rfl, mem_append_right _ ?_⟩
    exact mem_flatMap.mpr ⟨_, h, hpt .input⟩

/-- The arguments that are partners are there, and have one type. -/
def Pairs (now : Draft) (partners : Partners) : Prop :=
  ∀ ⦃name other : String⦄, partners.lookup name = some other → ∃ t root partner,
    now.Locates root t ⟨name, []⟩ ∧ now.Locates partner t ⟨other, []⟩

theorem Pairs.later {d' : Draft} {partners : Partners} (h : now.Pairs partners)
    (hl : now.Precedes d') : d'.Pairs partners := by
  intro name other hlk
  obtain ⟨t, root, partner, hrt, hpt⟩ := h hlk
  exact ⟨t, root, partner, hrt.later hl, hpt.later hl⟩

theorem Declares.pairs (h : d.Declares excluded now)
    (hnm : (name, type) ∈ d.argumentsOf dir) (hincluded : name ∉ excluded) :
    ∃ root partner, now.Locates root type ⟨name, []⟩ ∧
      now.Locates partner type ⟨d.options.gradientName name, []⟩ := by
  obtain ⟨own, -, hown⟩ := gradientName_mem_adjointArguments hnm hincluded
  obtain ⟨root, hrt⟩ := h.arguments _ (mem_adjointArguments hnm excluded)
  obtain ⟨partner, hpt⟩ := h.arguments _ hown
  exact ⟨root, partner, hrt, hpt⟩

theorem Declares.pairs_seeds (h : d.Declares excluded now) :
    now.Pairs (d.gradientNames excluded).seeds := by
  intro name other hlk
  obtain ⟨rfl, hincluded, t, hnm⟩ := (d.lookup_seeds excluded).mp hlk
  rcases mem_append.mp hnm with hnm | hnm <;> exact ⟨t, h.pairs hnm hincluded⟩

theorem Declares.pairs_deposits (h : d.Declares excluded now) :
    now.Pairs (d.gradientNames excluded).deposits := by
  intro name other hlk
  obtain ⟨rfl, hincluded, t, hnm⟩ := (d.lookup_deposits excluded).mp hlk
  rcases mem_append.mp hnm with hnm | hnm <;> exact ⟨t, h.pairs hnm hincluded⟩

end Names

end Draft

namespace Setting

open Draft

variable {F : Type} [Field F] {S : Setting F}

section Seeding

variable (S) (partners : Partners)

/-- The gradient that flows in at a place. -/
def seedOf (path : AccessPath) : F :=
  (partners.lookup path.argument).elim 0 fun other ↦ S.interpretation.read (path.within other)

def seedAt (id : NodeId) : F := (S.last.graph.accessPath? id).elim 0 (S.seedOf partners)

/-- The addresses have got their gradients, and nothing else has got anything. -/
structure Seeded (addresses : List NodeId) (sw : Sweep) : Prop where
  holds : S.Holds sw
  places : ∀ addr ∈ addresses, ∃ t path, sw.draft.Locates addr t path
  gathered : sw.draft.Precedes S.last → ∀ id,
    S.gathered sw.accumulator id = if id ∈ addresses then S.seedAt partners id else 0

variable {S partners} {addresses : List NodeId} {sw sweep d' : Sweep}

section

variable (h : S.Seeded partners addresses sw)

include h

/-- An address that gets no gradient. -/
theorem Seeded.without (hpl : sw.draft.Locates addr t path)
    (hno : partners.lookup path.argument = none) :
    S.Seeded partners (addr :: addresses) sw where
  holds := h.holds
  places := forall_mem_cons.mpr ⟨⟨t, path, hpl⟩, h.places⟩
  gathered hla id := by
    rw [h.gathered hla]
    by_cases hid : id = addr
    · subst hid
      have hseed : S.seedAt partners id = 0 := by
        rw [seedAt, (hpl.later hla).accessPath?, elim_some, seedOf, hno, elim_none]
      rw [hseed, ite_self, ite_self]
    · simp only [mem_cons, hid, false_or]

/-- An address gets what the same part of the gradient argument holds. -/
theorem Seeded.push {partner read : NodeId} {prec : Precision} {d middle : Draft}
    (hpl : sw.draft.Locates addr prec.type path) (hfr : addr ∉ addresses)
    (hlk : partners.lookup path.argument = some other) (hgr : sw.draft.Grows d)
    (hs : d.Sound) (hpt : d.Locates partner prec.type (path.within other))
    (hrd : (Build.read partner).run d = (.ok read, middle))
    (hr : (Reverse.push addr read).run ⟨middle, sw.accumulator⟩ = (.ok ⟨⟩, d')) :
    S.Seeded partners (addr :: addresses) d' ∧ sw.draft.Grows d'.draft := by
  have hld := read_enlarges partner d
  obtain ⟨tgt, n, htg, -, hn, hk, ht, haddr⟩ := ok_of_run_read hs hrd
  obtain ⟨m, hf, hfoundType, -⟩ := hpt.node?
  cases htg.symm.trans hf
  have hmid : sw.draft.Grows middle :=
    hgr.trans ⟨hld.precedes hrd hs, ((read_keepsRest _ _).of_run hrd).writes⟩
  have htm : middle.Term prec.type read := .read hn (ht.trans hfoundType) haddr hk
  obtain ⟨located, hlocated, hlocatedType, hlocatedAddress⟩ := (hpl.later hmid.toPrecedes).node?
  obtain ⟨haf, hd, -, ⟨constant, v, hc, hconstantKind, rfl⟩ | hgathered⟩ :=
    (h.holds.onDraft hmid.toPrecedes (hld.sound hrd hs)).push
      ⟨located, hlocated, hlocatedType⟩ htm hr
  · cases hlocated.symm.trans hc
    cases hlocatedAddress.symm.trans (haf.sound.constant hc hconstantKind).1
  · rw [hd]
    refine ⟨⟨haf, ?_, fun hla id ↦ ?_⟩, hmid⟩
    · rw [hd]
      refine forall_mem_cons.mpr ⟨⟨_, _, hpl.later hmid.toPrecedes⟩, fun id hid ↦ ?_⟩
      obtain ⟨t, way, hway⟩ := h.places id hid
      exact ⟨t, way, hway.later hmid.toPrecedes⟩
    · rw [hd] at hla
      rw [hgathered, h.gathered (hmid.toPrecedes.trans hla)]
      by_cases hid : id = addr
      · subst hid
        have hv : S.value read = S.interpretation.read (path.within other) :=
          Graph.denote_read (hla.graph.node? hn) hk
            (hpt.later ((hld.precedes hrd hs).trans hla)).accessPath?
        rw [if_neg hfr, if_pos rfl, if_pos mem_cons_self, zero_add, hv, seedAt,
          (hpl.later (hmid.toPrecedes.trans hla)).accessPath?, elim_some, seedOf,
          hlk, elim_some]
      · simp only [mem_cons, hid, false_or, if_false, add_zero]

/-- The addresses of writes get their gradients. -/
theorem Seeded.step (hpairs : sw.draft.Pairs partners) (hid : sw.draft.Numeric id)
    (hr : (Reverse.seedNode partners addresses id).run sw = (.ok addresses', d')) :
    S.Seeded partners addresses' d' ∧ sw.draft.Grows d'.draft ∧
      addresses ⊆ addresses' ∧ ∀ ⦃n : Node⦄ ⦃addr v : NodeId⦄,
        sw.draft.graph.node? id = some n → n.kind = .write addr v → addr ∈ addresses' := by
  obtain ⟨n, hn⟩ := hid.node?
  rw [Reverse.seedNode, run_bind_of_ok (run_node hn)] at hr
  split at hr
  next addr v hk =>
    obtain ⟨prec, path, hsup, hpl, -⟩ := hid.of_write hn hk
    have hls (hm : addr ∈ addresses') : ∀ ⦃m : Node⦄ ⦃other v : NodeId⦄,
        sw.draft.graph.node? id = some m → m.kind = .write other v → other ∈ addresses' := by
      intro m other v hf hfk
      cases hn.symm.trans hf
      cases hk.symm.trans hfk
      exact hm
    by_cases hseeded : addr ∈ addresses
    · rw [if_pos (contains_iff_mem.mpr hseeded)] at hr
      obtain ⟨rfl, rfl⟩ := ok_of_run_pure hr
      exact ⟨h, .refl _, fun _ h ↦ h, hls hseeded⟩
    · rw [if_neg fun hcontains ↦ hseeded (contains_iff_mem.mp hcontains)] at hr
      obtain ⟨m, s, hpt, hrs⟩ := ok_of_run_bind hr
      obtain ⟨d, hd, rfl⟩ := ok_of_run_onDraft hpt
      cases hlk : partners.lookup path.argument with
      | none =>
        cases (hpl.run_partnerAddress?_none hlk).symm.trans hd
        obtain ⟨rfl, rfl⟩ := ok_of_run_pure hrs
        exact ⟨h.without hpl hlk, .refl _, subset_cons_self _ _, hls mem_cons_self⟩
      | some other =>
        obtain ⟨t, root, arg, hrt, harg⟩ := hpairs hlk
        obtain ⟨partner, rfl, hp, hws⟩ :=
          hpl.ok_of_run_partnerAddress? h.holds.sound hlk hrt harg hd
        obtain ⟨read, s, honDraft, hpushes⟩ := ok_of_run_bind hrs
        obtain ⟨middle, hrd, rfl⟩ := ok_of_run_onDraft honDraft
        obtain ⟨⟨⟩, s, hpu, hret⟩ := ok_of_run_bind hpushes
        obtain ⟨rfl, rfl⟩ := ok_of_run_pure hret
        have hld := (Build.enlarges (·.partnerAddress? partners addr) sw.draft).leads
        obtain ⟨hnx, hgr⟩ := h.push hpl hseeded hlk
          ⟨hld.precedes hd h.holds.sound, hws⟩ (hld.sound hd h.holds.sound) hp
          hrd hpu
        exact ⟨hnx, hgr, subset_cons_self _ _, hls mem_cons_self⟩
  next ho =>
    obtain ⟨rfl, rfl⟩ := ok_of_run_pure hr
    refine ⟨h, .refl _, fun _ h ↦ h, fun m addr v hf hk ↦ ?_⟩
    cases hn.symm.trans hf
    exact absurd hk (ho addr v)

/-- The gradients of all written addresses. -/
theorem Seeded.run (hpairs : sw.draft.Pairs partners)
    {ids : List NodeId} (hids : ∀ id ∈ ids, sw.draft.Numeric id)
    (hr : (ids.foldlM (Reverse.seedNode partners) addresses).run sw = (.ok addresses', d')) :
    S.Seeded partners addresses' d' ∧ sw.draft.Grows d'.draft ∧
      addresses ⊆ addresses' ∧ ∀ id ∈ ids, ∀ ⦃n : Node⦄ ⦃addr v : NodeId⦄,
        sw.draft.graph.node? id = some n → n.kind = .write addr v → addr ∈ addresses' := by
  induction ids generalizing addresses sw with
  | nil =>
    obtain ⟨rfl, rfl⟩ := ok_of_run_pure hr
    exact ⟨h, .refl _, fun _ h ↦ h, forall_mem_nil _⟩
  | cons id ids ih =>
    obtain ⟨hid, hos⟩ := forall_mem_cons.mp hids
    obtain ⟨next, middle, hstep, hrs⟩ := ok_of_run_foldlM_cons hr
    obtain ⟨hmid, hgr, hsubset, hfst⟩ := h.step hpairs hid hstep
    have hl := hgr.toPrecedes
    obtain ⟨haf, hgrows', hsubset', hls⟩ := ih hmid (hpairs.later hl)
      (fun other ho ↦ (hos other ho).later hl) hrs
    refine ⟨haf, hgr.trans hgrows', fun _ h ↦ hsubset' (hsubset h), ?_⟩
    refine forall_mem_cons.mpr ⟨fun _ _ _ hn hk ↦ hsubset' (hfst hn hk), ?_⟩
    intro other ho _ _ _ hn hk
    exact hls other ho (hl.graph.node? hn) hk

end

/-- At first nothing has arrived anywhere. -/
theorem Seeded.seed {order : Array NodeId} (h : S.Holds sweep) (hempty : sweep.accumulator = .empty)
    (hpairs : sweep.draft.Pairs partners) (hids : ∀ id ∈ order.toList, sweep.draft.Numeric id)
    (hr : (Reverse.seed partners order).run sweep = (.ok ⟨⟩, d')) :
    ∃ addresses, S.Seeded partners addresses d' ∧ sweep.draft.Grows d'.draft ∧
      ∀ id ∈ order.toList, ∀ ⦃n : Node⦄ ⦃addr v : NodeId⦄,
        sweep.draft.graph.node? id = some n → n.kind = .write addr v → addr ∈ addresses := by
  have hsta : S.Seeded partners [] sweep := ⟨h, forall_mem_nil _, fun _ id ↦ by
      rw [hempty, gathered_empty, if_neg not_mem_nil]⟩
  rw [seed_eq] at hr
  obtain ⟨addresses, s, hfold, hret⟩ := ok_of_run_bind hr
  obtain ⟨-, rfl⟩ := ok_of_run_pure hret
  obtain ⟨hseeded, hgr, -, hls⟩ := hsta.run hpairs hids hfold
  exact ⟨addresses, hseeded, hgr, hls⟩

/-- Gradients at addresses have no weight. -/
theorem Seeded.balanced (h : S.Seeded partners addresses sw) (path : AccessPath)
    (order : List NodeId) : S.Balanced path order [] sw where
  holds := h.holds
  settled _ h := absurd h not_mem_nil
  balance hla := by
    refine sum_eq_zero fun share hshare ↦ ?_
    obtain ⟨id, -, rfl⟩ := mem_map.mp hshare
    rw [h.gathered hla]
    by_cases hid : id ∈ addresses
    · obtain ⟨t, way, hpl⟩ := h.places id hid
      rw [slopeAt_place (hpl.later hla), mul_zero]
    · rw [if_neg hid, zero_mul]

end Seeding

end Setting

end DiffGraph
