import DiffGraph.Proofs.Draft.TypedSweeps

/-!
Copies of well-typed nodes. A function whose nodes are well typed can be copied node by node into a
draft that has its arguments: every copy is proper, stands for a value of the same type or for an
address at the same place, and the writes that are made are made to the function's own arguments
(`Replayed.run_copyWrites`).
-/

set_option autoImplicit false

namespace DiffGraph

open List Stateful

variable {name : String}

namespace Draft

/-- The copy is proper, and is a value of the node's type or an address at the node's place. -/
structure Replays (src now : Draft) (id copy : NodeId) : Prop where
  proper : now.Proper copy
  value : ∀ ⦃t : String⦄, src.HoldsValue id t → now.HoldsValue copy t
  place : ∀ ⦃t : String⦄ ⦃path : AccessPath⦄, src.Locates id t path →
    now.Locates copy t path

section Replaying

variable {src now d' after : Draft} {id copy : NodeId} {n : Node} {t type : String}

theorem Replays.later (h : Replays src now id copy) (hl : now.Precedes d') :
    Replays src d' id copy where
  proper := h.proper.later hl
  value _ hv := (h.value hv).later hl
  place _ _ hpl := (h.place hpl).later hl

theorem Replays.typed (h : Replays src now id copy) (hv : src.HoldsValue id type) :
    now.Typed copy type := ⟨h.proper, h.value hv⟩

theorem Typed.replays (h : now.Typed copy n.type) (hn : src.graph.node? id = some n)
    (hv : n.isAddress = false) : Replays src now id copy where
  proper := h.proper
  value _ hholds := by
    obtain ⟨m, hf, rfl, -⟩ := hholds
    cases hn.symm.trans hf
    exact h.holds
  place _ _ hpl := by
    obtain ⟨m, hf, -, haddr⟩ := hpl.node?
    cases hn.symm.trans hf
    cases hv.symm.trans haddr

theorem Locates.replays {path : AccessPath} (h : src.Locates id t path)
    (hcp : now.Locates copy t path) (hpro : now.Proper copy) :
    Replays src now id copy where
  proper := hpro
  value _ hholds := by
    obtain ⟨n, hn, -, hv⟩ := hholds
    obtain ⟨m, hf, -, haddr⟩ := h.node?
    cases hn.symm.trans hf
    cases hv.symm.trans haddr
  place other way hpl := by
    obtain ⟨n, hn, rfl, -⟩ := hpl.node?
    obtain ⟨m, hf, rfl, -⟩ := h.node?
    cases hn.symm.trans hf
    cases h.accessPath?.symm.trans hpl.accessPath?
    exact hcp

/-- The node writes to an argument that the other function has as well. -/
def Repeats (src now : Draft) (id : NodeId) : Prop :=
  now.Proper id ∧ ∃ n tgt v t path, now.graph.node? id = some n ∧
    n.kind = .write tgt v ∧ now.Locates tgt t path ∧
      path.argument ∈ src.arguments.map Prod.fst

theorem Repeats.later (h : Repeats src now id) (hl : now.Precedes d') : Repeats src d' id := by
  obtain ⟨hpro, n, tgt, v, t, path, hn, hk, hpl, harg⟩ := h
  exact ⟨hpro.later hl, n, tgt, v, t, path, hl.graph.node? hn, hk, hpl.later hl, harg⟩

/-- A draft with copies of the nodes of another one. -/
structure Replayed (src : Draft) (copies : Bindings) (now : Draft) : Prop
    extends Copies (Replays src) src copies now where
  equipped : now.Equipped
  writes : ∀ id ∈ now.writes, Repeats src now id

variable {copies : Bindings}

/-- One more copy. -/
theorem Replayed.next (h : Replayed src copies now) (hl : now.Precedes d')
    (hs : d'.Sound) (hcp : Replays src d' id copy)
    (hws : ∀ other ∈ d'.writes, other ∈ now.writes ∨ Repeats src d' other) :
    Replayed src (copies.insert id copy) d' where
  toCopies := h.toCopies.next (fun _ _ _ _ hl hreplays ↦ hreplays.later hl) hl hs hcp
  equipped := h.equipped.later hl hs
  writes other ho := by
    rcases hws other ho with hkn | hrepeats
    · exact (h.writes other hkn).later hl
    · exact hrepeats

theorem Replayed.next_of_attains (h : Replayed src copies now) {x : Build NodeId}
    (hattains : now.Attains x False fun after copy ↦ Replays src after id copy) :
    ∃ copy after, x.run now = (.ok copy, after) ∧ Replayed src (copies.insert id copy) after := by
  obtain ⟨copy, after, hr, hgr, hs, hcp⟩ := hattains.exists_ok
  exact ⟨copy, after, hr, h.next hgr.toPrecedes hs hcp fun other ho ↦ .inl (hgr.same_writes ▸ ho)⟩

section Expressions

variable {op : Operator} {args : List NodeId} {f : NodeId → NodeId}

section

variable (h : Replayed src copies now) (hsrc : src.Equipped) (hn : src.graph.node? id = some n)

include h hsrc hn

theorem Replayed.attains_registered
    {pos : Nat} (hk : n.kind = .expression (.registered name pos) args)
    (hops : ∀ arg ∈ args, Replays src now arg (f arg)) :
    now.Attains (Build.apply name ((args.map f).map .node)) False
      fun d' copy ↦ d'.Typed copy n.type := by
  obtain ⟨ov, -, hrv, hnb, -, hvs⟩ := hsrc.registered hn hk
  refine h.equipped.attains_apply hnb (fun other ho ↦ ?_) ?_
  · obtain ⟨arg, hop, rfl⟩ := mem_map.mp ho
    exact (hops arg hop).typed (hvs arg hop)
  · rw [map_map]
    exact Option.isSome_iff_exists.mpr ⟨_, hrv⟩

/-- The copy of a slot is a slot of the copy. -/
theorem Replayed.attains_slot {base : NodeId} (hk : n.kind = .expression op [base])
    (hproj : op.isProjection = true) (hba : Replays src now base copy) :
    now.Attains (Build.rebuild op n.type [copy]) False
      fun d' found ↦ Replays src d' id found := by
  obtain ⟨before, hbf, hfi, -⟩ := hsrc.sound.expression hn hk
  obtain ⟨_, tgt, hsame, htg, haddr⟩ := hfi.of_projection hproj
  cases hsame
  have htg := hbf.graph.node? htg
  have hsl := hsrc.sound.slotType? hn hk hproj htg
  obtain ⟨q, hreq⟩ := Build.exists_slotRequest hproj copy
  rw [hreq.rebuild_eq]
  cases hnodeAddress : n.isAddress with
  | true =>
    obtain ⟨path, hpl⟩ := hsrc.sound.exists_place htg (haddr.trans hnodeAddress)
    refine (h.equipped.attains_slot_place (hba.place hpl) hba.proper
      (h.copying.types.slotType? hsl) hreq).mono (fun hfl ↦ hfl) fun _ _ hp ↦ ?_
    exact (Locates.part hpl hsl hn hnodeAddress hk).replays hp.1 hp.2
  | false =>
    have hv : src.HoldsValue base tgt.type := ⟨tgt, htg, rfl, haddr.trans hnodeAddress⟩
    refine (h.equipped.attains_slot (hba.typed hv) (h.copying.types.slotType? hsl)
      hreq).mono (fun hfl ↦ hfl) fun _ _ hp ↦ ?_
    exact hp.replays hn hnodeAddress

theorem Replayed.attains_construct (hty : src.WellTyped n)
    (hk : n.kind = .expression .construct args) (hops : ∀ arg ∈ args, Replays src now arg (f arg)) :
    now.Attains (Build.construct n.type (args.map f)) False
      fun d' copy ↦ d'.Typed copy n.type := by
  obtain ⟨before, hbf, hfi, -⟩ := hsrc.sound.expression hn hk
  obtain ⟨older, holder, harity, hvs⟩ := hfi.of_construct
  obtain ⟨defn, hg, hwn⟩ := hbf.types.get? holder
  obtain ⟨wider, hwd, hwidens'⟩ := h.copying.types.get? hg
  have hnum := hty.numeric.extends h.copying.types
  have hcopies : ∀ arg ∈ args, ∀ type, src.HasType arg type → now.Typed (f arg) type := by
    intro arg hop type ht
    obtain ⟨m, hf, rfl⟩ := ht
    obtain ⟨other, other', ho, -, hv⟩ := hvs arg hop
    cases hf.symm.trans (hbf.graph.node? ho)
    exact (hops arg hop).typed ⟨m, hf, rfl, hv⟩
  rcases hsrc.types.exists_parts hty.numeric hg with ⟨kind, hsh⟩ | ⟨parts, hps, -⟩
  · have hone : args.length = 1 := by
      rw [harity, TypeDefinition.arity?, hwn.scalar_shape.mp hsh]
      rfl
    obtain ⟨arg, rfl⟩ := length_eq_one_iff.mp hone
    obtain ⟨type, m, hf, ht, -⟩ := hvs arg mem_cons_self
    exact h.equipped.attains_convert hnum hwd (hwidens'.scalar_shape.mpr hsh)
      (hcopies arg mem_cons_self type ⟨m, hbf.graph.node? hf, ht⟩)
  · have hts := (forall₂_and_left args (parts.map Prod.snd)).mpr ⟨hcopies, hty.slots hk hg hps⟩
    refine h.equipped.attains_aggregate hnum hwd (hwidens'.parts?.trans hps) ?_
    exact forall₂_map_left_iff.mpr (hts.imp fun _ _ hboth ↦ hboth.1 _ hboth.2)

/-- What is applied to operands can be applied to their copies. -/
theorem Replayed.attains_rebuild (hty : src.WellTyped n) (hk : n.kind = .expression op args)
    (hops : ∀ arg ∈ args, Replays src now arg (f arg)) :
    now.Attains (Build.rebuild op n.type (args.map f)) False
      fun d' copy ↦ Replays src d' id copy := by
  have hv (ho : op.isProjection = false) : n.isAddress = false := by
    obtain ⟨before, -, hfi, -⟩ := hsrc.sound.expression hn hk
    exact hfi.of_not_projection ho
  cases op with
  | registered name pos =>
    exact (h.attains_registered hsrc hn hk hops).mono (fun hfl ↦ hfl)
      fun _ _ hcp ↦ hcp.replays hn (hv rfl)
  | construct =>
    exact (h.attains_construct hsrc hn hty hk hops).mono (fun hfl ↦ hfl)
      fun _ _ hcp ↦ hcp.replays hn (hv rfl)
  | member | index =>
    obtain ⟨base, rfl⟩ := hsrc.sound.exists_base hn hk rfl
    exact h.attains_slot hsrc hn hk rfl (hops base mem_cons_self)

end

end Expressions

section Copying

theorem run_copied (h : copies[id]? = some copy) : (match copies[id]? with
      | some copy => return copy
      | none => throw (.foreignNode id.index) : Build NodeId).run now =
        (.ok (copies.getD id id), now) := by
  rw [Std.HashMap.getD_eq_getD_getElem?, h]
  rfl

/-- The arguments are there with their types and directions. -/
theorem Copying.exists_argument (h : src.Copying now) (hn : src.graph.node? id = some n)
    {direction : Direction} (hk : n.kind = .argument name direction) :
    ∃ copy m, now.arguments.lookup name = some copy ∧ now.graph.node? copy = some m ∧
      m.type = n.type ∧ m.kind = .argument name direction := by
  obtain ⟨copy, hlk, hsame⟩ := h.arguments hn hk
  obtain ⟨other, m, ho, hf, ht, hsameKind⟩ := hsame.nodes
  cases hn.symm.trans ho
  rw [hk] at hsameKind
  refine ⟨copy, m, hlk, hf, ht.symm, ?_⟩
  generalize m.kind = kind at hsameKind
  cases hsameKind
  rfl

section

variable (h : Replayed src copies now) (hsrc : src.Equipped)

include h hsrc

/-- A write is made again. -/
theorem Replayed.copy_write (hn : src.graph.node? id = some n) {addr v addr' v' : NodeId}
    (hk : n.kind = .write addr v) (haddr : Replays src now addr addr') (hv : Replays src now v v') :
    ∃ copy after, (Build.write addr' (.node v')).run now = (.ok copy, after) ∧
      Replayed src (copies.insert id copy) after := by
  obtain ⟨tgt, m, root, arg, name, dir, htg, hta, hf,
    hfoundValue, ht, hrt, harg, hargumentKind, hdirection⟩ := hsrc.sound.write_target hn hk
  obtain ⟨path, hpl⟩ := hsrc.sound.exists_place htg hta
  have hnm : path.argument = name := by
    obtain ⟨own, hown⟩ := Graph.argumentOf?_eq_some_of_accessPath? hpl.accessPath?
    rw [Graph.argumentOf?, hrt, Option.bind_some, harg, Option.bind_some,
      Build.argument?_eq_some.mpr hargumentKind] at hown
    cases hown
    rfl
  have hwritable : now.Writable path.argument := by
    obtain ⟨copy, copied, -, hcd, -, hcopiedKind⟩ := h.copying.exists_argument harg hargumentKind
    exact ⟨copy, copied, dir, hcd, hnm ▸ hcopiedKind, hdirection⟩
  have hls : path.argument ∈ src.arguments.map Prod.fst :=
    mem_map.mpr ⟨(name, root), (hsrc.sound.argument harg hargumentKind).2, hnm.symm⟩
  obtain ⟨copy, after, copied, hr, hl, hs, hcd, hcopiedType, hcopiedKind, hws⟩ :=
    (haddr.place hpl).exists_write h.equipped.sound hwritable
      (hv.value ⟨m, hf, ht.symm, hfoundValue⟩)
  have hcopyPlace := (haddr.place hpl).later hl
  obtain ⟨copiedTarget, hcopiedTarget, hsameType, -⟩ := hcopyPlace.node?
  have hnum : after.types.Numeric copied.type := by
    rw [hcopiedType, ← hsameType]
    exact ((haddr.proper.later hl).wellTyped hcopiedTarget).numeric
  have hpro : after.Proper copy := by
    refine .of_kind hcd hnum hcopiedKind (fun _ ho ↦ by cases ho) ?_
    exact forall_mem_cons.mpr ⟨haddr.proper.later hl, forall_mem_singleton.mpr (hv.proper.later hl)⟩
  obtain ⟨hnodeValue, -, before, hbf, hmayWrite⟩ := hsrc.sound.write hn hk
  obtain ⟨other, ho, -, hotherType⟩ := hmayWrite.target
  cases htg.symm.trans (hbf.graph.node? ho)
  have hholds : after.HoldsValue copy n.type :=
    ⟨copied, hcd, hcopiedType.trans hotherType, (hs.write hcd hcopiedKind).1⟩
  refine ⟨copy, after, hr, h.next hl hs
    (Typed.replays ⟨hpro, hholds⟩ hn hnodeValue) fun other ho ↦ ?_⟩
  refine (hws other ho).imp_right fun hsame ↦ ?_
  exact hsame ▸ ⟨hpro, copied, addr', v', tgt.type, path, hcd, hcopiedKind, hcopyPlace, hls⟩

/-- The copy of a well-typed node. -/
theorem Replayed.copyNode (hn : src.graph.node? id = some n) (hty : src.WellTyped n)
    (hops : ∀ arg ∈ n.operands, ∃ copy, copies[arg]? = some copy) :
    ∃ copy after, (Build.copyNode n copies).run now = (.ok copy, after) ∧
      Replayed src (copies.insert id copy) after := by
  have hcopies : ∀ arg ∈ n.operands, Replays src now arg (copies.getD arg arg) := by
    intro arg hop
    obtain ⟨copy, hcp⟩ := hops arg hop
    refine h.related ?_
    rw [Std.HashMap.getD_eq_getD_getElem?, hcp]
    rfl
  rw [Node.operands] at hops hcopies
  unfold Build.copyNode
  dsimp only
  cases hk : n.kind with
  | constant v =>
    have hv : n.isAddress = false := by
      refine Bool.eq_false_iff.mpr fun haddr ↦ ?_
      rcases (hsrc.sound.isAddress_iff hn).mp haddr with
        ⟨_, _, ho⟩ | ⟨_, _, _, ho, -⟩
      all_goals cases hk.symm.trans ho
    exact h.next_of_attains ((h.equipped.attains_constant
      (hty.numeric.extends h.copying.types) v).mono (fun hfl ↦ hfl) fun _ _ hcp ↦ hcp.replays hn hv)
  | argument name dir =>
    obtain ⟨copy, m, hlk, hf, ht, hfk⟩ := h.copying.exists_argument hn hk
    have hpl := Locates.argument hn (hsrc.sound.argument hn hk).1 hk
    have hcp := Locates.argument hf (h.equipped.sound.argument hf hfk).1 hfk
    rw [ht] at hcp
    refine h.next_of_attains (attains_of_ok h.equipped.sound (Build.run_argument hlk) ?_)
    refine hpl.replays hcp (proper_argument hf hfk ?_)
    exact ht ▸ hty.numeric.extends h.copying.types
  | read addr =>
    rw [hk] at hops hcopies
    have haddr := hcopies addr mem_cons_self
    obtain ⟨copy, hcp⟩ := hops addr mem_cons_self
    obtain ⟨hv, tgt, htg, hta, ht⟩ := hsrc.sound.read hn hk
    obtain ⟨path, hpl⟩ := hsrc.sound.exists_place htg hta
    refine h.next_of_attains (Attains.after_ok ?_ (run_copied hcp))
    refine (h.equipped.attains_read (haddr.place hpl) haddr.proper).mono
      (fun hfl ↦ hfl) fun _ _ hrd ↦ ?_
    exact (ht ▸ hrd).replays hn hv
  | write addr v =>
    rw [hk] at hops hcopies
    obtain ⟨hfst, hsnd⟩ := forall_mem_cons.mp hops
    obtain ⟨haddr, hv⟩ := forall_mem_cons.mp hcopies
    obtain ⟨_, hcp⟩ := hfst
    obtain ⟨_, hcopy'⟩ := hsnd v mem_cons_self
    obtain ⟨copy, after, hr, hreplayed⟩ := h.copy_write hsrc hn hk haddr (hv v mem_cons_self)
    exact ⟨copy, after, (run_bind_of_ok (run_copied hcp)).trans
      ((run_bind_of_ok (run_copied hcopy')).trans hr), hreplayed⟩
  | expression op args =>
    rw [hk] at hops hcopies
    refine h.next_of_attains (Attains.after_ok (h.attains_rebuild hsrc hn hty hk hcopies)
      (run_mapM_of_ok fun arg hop ↦ ?_))
    obtain ⟨copy, hcp⟩ := hops arg hop
    exact run_copied hcp

/-- The nodes of a function are copied in order. -/
theorem Replayed.run_copies
    (hty : ∀ id ∈ src.order, ∀ n, src.graph.node? id = some n → src.WellTyped n) {ids : List NodeId}
    (earlier : List NodeId) (hord : src.order = earlier ++ ids)
    (hear : ∀ id ∈ earlier, ∃ copy, copies[id]? = some copy) :
    ∃ copies' after, (ids.foldlM (fun copies id ↦ (do
      match src.graph.node? id with
      | some n => return copies.insert id (← Build.copyNode n copies)
      | none => throw (.foreignNode id.index) : Build Bindings)) copies).run now =
        (.ok copies', after) ∧ Replayed src copies' after := by
  induction ids generalizing copies now earlier with
  | nil => exact ⟨copies, now, rfl, h⟩
  | cons id ids ih =>
    have hid : id ∈ src.order := hord ▸ mem_append_right _ mem_cons_self
    obtain ⟨n, hn⟩ := hsrc.sound.node?_of_mem_order hid
    have hops : ∀ arg ∈ n.operands, ∃ copy, copies[arg]? = some copy := by
      intro arg hop
      refine hear arg (Dependencies.operands_inOrder _ _ hord arg ?_)
      rwa [Graph.operands_of_node? hn]
    obtain ⟨copy, middle, hr, hreplayed⟩ := h.copyNode hsrc hn (hty id hid n hn) hops
    have hmore : ∀ other ∈ earlier ++ [id],
        ∃ found, (copies.insert id copy)[other]? = some found := by
      intro other ho
      rw [Std.HashMap.getElem?_insert]
      split
      next => exact ⟨copy, rfl⟩
      next hne =>
        rcases mem_append.mp ho with ho | ho
        · exact hear other ho
        · exact absurd (beq_iff_eq.mpr (mem_singleton.mp ho).symm) hne
    obtain ⟨copies', after, hrs, hend⟩ :=
      ih hreplayed (earlier ++ [id]) (by rw [hord, append_assoc]; rfl) hmore
    refine ⟨copies', after, ?_, hend⟩
    rw [foldlM_cons]
    refine (run_bind_of_ok ?_).trans hrs
    rw [hn]
    exact run_bind_of_ok hr

end

/-- A function whose nodes are well typed can be copied into a draft that has its arguments. -/
theorem Replayed.run_copyWrites (h : Replayed src ∅ now) (hsrc : src.Equipped)
    (hty : ∀ id ∈ src.order, ∀ n, src.graph.node? id = some n → src.WellTyped n) :
    ∃ copies after, (Build.copyWrites src).run now = (.ok ⟨⟩, after) ∧
      Replayed src copies after := by
  obtain ⟨copies, after, hr, hreplayed⟩ :=
    h.run_copies hsrc hty [] rfl fun _ hno ↦ absurd hno not_mem_nil
  refine ⟨copies, after, ?_, hreplayed⟩
  rw [Build.copyWrites, ← Array.foldlM_toList]
  exact run_bind_of_ok hr

/-- All that the copied writes depend on is proper. -/
theorem Replayed.proper (h : Replayed src copies now) :
    ∀ id ∈ now.dependencies.inOrder, now.Proper id := by
  intro id hid
  obtain ⟨root, hrt, hpath⟩ := (Dependencies.mem_inOrder_iff _ _).mp (Array.mem_toList_iff.mpr hid)
  clear hid
  induction hpath with
  | refl => exact (h.writes root hrt).1
  | tail _ hop ih =>
    obtain ⟨n, hn, -⟩ := ih.exists_node
    rw [Graph.operands_of_node? hn] at hop
    exact ih.operand hn hop

end Copying

end Replaying

end Draft

end DiffGraph
