import DiffGraph.Proofs.Draft.Listing
import DiffGraph.Proofs.Draft.Ownership
import DiffGraph.Proofs.Draft.Substitution

/-!
Substitutions that change nothing. An address that is bound to its own read is read again where a
part of it is read: the way down from the bound address takes the slots of values that were read,
and each of these is the read of a part (`Adds.run_descend`). So the expression stays as it is, but
the parts on the way are read on the side, and the graph grows if one of them was not read before
(`Reachable.substitute_own_reads`, `substitute_entrySine`).
-/

set_option autoImplicit false

namespace DiffGraph

open List Stateful

variable {d now after : Draft} {bs k : Bindings} {id addr part base v : NodeId} {path : List NodeId}
  {n m : Node} {op : Operator} {reads : NodeId → Prop}

namespace Draft

/-- The slot of a value that was read is the part of the address, read. -/
theorem Sound.run_rebuild_read (hs : now.Sound) (hlim : 2 ≤ now.options.replacementLimit)
    (hn : now.graph.node? id = some n) (hrd : n.kind = .read base)
    (hp : now.graph.node? part = some m) (hk : m.kind = .expression op [base])
    (hopt : op.isProjection = true) (given : String) :
    (Build.rebuild op given [id]).run now = (Build.read part).run now := by
  obtain ⟨rest, hrest⟩ := Nat.exists_eq_add_of_le' hlim
  obtain ⟨q, hreq⟩ := Build.exists_slotRequest hopt id
  obtain ⟨-, tgt, htg, -, hsame⟩ := hs.read hn hrd
  obtain ⟨_, _, whole, slot, hba, ho, -, hwh, htk⟩ := hs.takesSlot hp hk hopt
  cases hba
  cases htg.symm.trans ho
  rw [hsame] at hwh
  rw [hreq.rebuild_eq, Build.request, run_get_bind, htk.run_perform hreq hn hwh, hrest]
  exact htk.run_finish_read hs hn hrd hwh hp hk rfl _

/-- The graph has grown by reads of such addresses, if at all. -/
structure Adds (d now : Draft) (reads : NodeId → Prop) : Prop extends d.Precedes now where
  sound : now.Sound
  rest : d.KeepsRest now
  added : ∀ {id n}, now.graph.node? id = some n →
    d.graph.node? id = some n ∨ ∃ part, reads part ∧ n.kind = .read part

theorem Adds.refl (hs : d.Sound) : d.Adds d reads := ⟨.refl d, hs, rfl, .inl⟩

/-- An address is read, again or for the first time. -/
theorem Adds.read (h : d.Adds now reads) (hp : now.graph.node? part = some m)
    (haddr : m.isAddress = true) (hreads : reads part) :
    ∃ id after n, (Build.read part).run now = (.ok id, after) ∧ d.Adds after reads ∧
      after.graph.node? id = some n ∧ n.kind = .read part := by
  have owned : ∀ arg ∈ (NodeKind.read part).operands, now.graph.Owns arg := by
    simpa [NodeKind.operands] using Graph.owns_of_node? hp
  have hr := (Build.run_read hp haddr).trans (Build.run_intern owned)
  have hl := Build.read_enlarges part now
  obtain ⟨_, n, -, -, hn, hk, -⟩ := Build.ok_of_run_read h.sound hr
  refine ⟨_, _, n, hr, ⟨h.trans (hl.precedes hr h.sound), hl.sound hr h.sound,
    IsTrans.trans _ _ _ h.rest ((Build.read_keepsRest part now).of_run hr), fun hf ↦ ?_⟩, hn, hk⟩
  rcases Graph.node?_intern_cases owned hf with hold | ⟨-, -, hread, -⟩
  · exact h.added hold
  · exact .inr ⟨part, hreads, hread⟩

/-- The node is a read of the address. -/
def Reads (d : Draft) (id addr : NodeId) : Prop :=
  ∃ n, d.graph.node? id = some n ∧ n.kind = .read addr

theorem Sound.eq_of_reads (hs : d.Sound) {other : NodeId} (h : d.Reads id addr)
    (ho : d.Reads other addr) : id = other := by
  obtain ⟨n, hn, hk⟩ := h
  obtain ⟨m, hm, hmk⟩ := ho
  obtain ⟨-, tgt, htg, -, ht⟩ := hs.read hn hk
  obtain ⟨-, tgt', htg', -, ht'⟩ := hs.read hm hmk
  cases htg.symm.trans htg'
  exact hs.interned.eq_of_contents hn hm (ht.symm.trans ht') (hk.trans hmk.symm)

/-- A binding is of the address itself or of one that it is a part of. -/
theorem Sound.binding?_cases (hs : d.Sound) (hn : d.graph.node? addr = some n)
    (haddr : n.isAddress = true) (h : d.binding? bs addr = some (v, path)) :
    bs[addr]? = some v ∧ path = [] ∨ ∃ base op above m, n.kind = .expression op [base] ∧
      op.isProjection = true ∧ d.graph.lineage addr = addr :: d.graph.lineage base ∧
        base.index < addr.index ∧ d.graph.node? base = some m ∧ m.isAddress = true ∧
          d.binding? bs base = some (v, above) ∧ path = above ++ [addr] := by
  obtain ⟨depth, hdepth, hf⟩ := Option.bind_eq_some_iff.mp h
  obtain ⟨_, hv, hpair⟩ := Option.map_eq_some_iff.mp hf
  cases hpair
  obtain ⟨around, hl⟩ := Graph.lineage_eq_cons (Graph.owns_of_node? hn)
  rw [hl] at hdepth hv ⊢
  rw [findIdx?_cons] at hdepth
  split at hdepth
  · cases hdepth
    exact .inl ⟨hv, rfl⟩
  · obtain ⟨k, hk, rfl⟩ := Option.map_eq_some_iff.mp hdepth
    rcases hs.address_cases hn haddr with ⟨_, _, hkind⟩ | ⟨base, m, op, hm, hma, hkind, hopt⟩
    · rw [Graph.lineage_of_base_none hn (by rw [hkind]; rfl)] at hl
      cases hl
      cases hk
    · have hproj : op.isProjection = true := by rcases hopt with ⟨_, rfl⟩ | ⟨_, rfl⟩ <;> rfl
      have hba : n.kind.base? = some base := by
        rw [hkind]
        rcases hopt with ⟨field, rfl⟩ | ⟨pos, rfl⟩ <;> rfl
      cases hl.symm.trans (Graph.lineage_of_base hn hba)
      refine .inr ⟨base, op, _, m, hkind, hproj, rfl,
        Graph.operand_index_lt hn (NodeKind.base?_mem_operands hba), hm, hma,
        Option.bind_eq_some_iff.mpr ⟨k, hk, Option.map_eq_some_iff.mpr ⟨v, hv, rfl⟩⟩, ?_⟩
      rw [take_succ_cons, reverse_cons]

/-- The bound addresses on the way up are bound to their own reads. -/
def BindsReads (d : Draft) (bs : Bindings) (addr : NodeId) : Prop :=
  ∀ part ∈ d.graph.lineage addr, ∀ v, bs[part]? = some v → d.Reads v part

/-- Along the way from a bound address to a part of it the parts are read one after the other. -/
theorem Adds.run_descend (h : d.Adds now reads) (hs : d.Sound)
    (hlim : 2 ≤ d.options.replacementLimit) (hn : d.graph.node? addr = some n)
    (haddr : n.isAddress = true) (hbs : d.BindsReads bs addr)
    (hb : d.binding? bs addr = some (v, path)) (hreads : ∀ part ∈ path, reads part) :
    ∃ id after, (Build.descend v path).run now = (.ok id, after) ∧ d.Adds after reads ∧
      after.Reads id addr := by
  induction hix : addr.index using Nat.strongRecOn generalizing addr n path with
  | ind index ih =>
    rcases hs.binding?_cases hn haddr hb with ⟨hv, rfl⟩ |
      ⟨base, op, above, m, hk, hproj, hl, hlt, hm, hma, hbase, rfl⟩
    · obtain ⟨_, hl⟩ := Graph.lineage_eq_cons (Graph.owns_of_node? hn)
      obtain ⟨m, hm, hmk⟩ := hbs addr (hl ▸ mem_cons_self) v hv
      exact ⟨v, now, rfl, h, m, h.graph.node? hm, hmk⟩
    · obtain ⟨hbelow, hpart⟩ := forall_mem_append.mp hreads
      have hbs' : d.BindsReads bs base := fun part hp ↦
        hbs part (hl ▸ mem_cons_of_mem _ hp)
      obtain ⟨id, middle, hr, hmid, m', hm', hmk⟩ := ih base.index (hix ▸ hlt) hm hma hbs'
        hbase hbelow rfl
      have hstored := hmid.graph.node? hn
      obtain ⟨res, after, n', hread, hafter, hn', hk'⟩ := hmid.read hstored haddr
        (hpart addr mem_cons_self)
      refine ⟨res, after, ?_, hafter, n', hn', hk'⟩
      rw [Build.descend_append, run_bind_of_ok hr, Build.run_descend_part hstored hk,
        hmid.sound.run_rebuild_read (hmid.options ▸ hlim) hm' hmk hstored hk hproj, hread]

theorem Adds.run_substituteNode (h : d.Adds now reads) (hs : d.Sound)
    (hlim : 2 ≤ d.options.replacementLimit) (hn : d.graph.node? id = some n)
    (hw : n.isWrite = false) (hk : ∀ other, k.getD other other = other)
    (hbs : ∀ {addr}, n.kind = .read addr → d.BindsReads bs addr)
    (hreads : ∀ {addr v path}, n.kind = .read addr → d.binding? bs addr = some (v, path) →
      ∀ part ∈ path, reads part) :
    ∃ after, (Build.substituteNode bs k id).run now = (.ok id, after) ∧ d.Adds after reads := by
  have hf := h.graph.node? hn
  cases hkind : n.kind with
  | read addr =>
    obtain ⟨-, tgt, htg, haddr, -⟩ := hs.read hn hkind
    have how := Graph.owns_of_node? htg
    cases hb : d.binding? bs addr with
    | none =>
      exact ⟨now, run_substituteNode_read hf hkind
        (Build.run_boundValue?_of_none ((h.binding?_eq how).trans hb)), h⟩
    | some bound =>
      obtain ⟨res, after, hr, hafter, hres⟩ := h.run_descend hs hlim htg haddr (hbs hkind) hb
        (hreads hkind hb)
      obtain rfl := hafter.sound.eq_of_reads hres ⟨n, hafter.graph.node? hn, hkind⟩
      refine ⟨after, run_substituteNode_read (m := some res) hf hkind ?_, hafter⟩
      rw [Build.run_boundValue?_of_some ((h.binding?_eq how).trans hb), run_bind_of_ok hr]
      rfl
  | write _ _ => rw [Node.isWrite, hkind] at hw; cases hw
  | expression op args =>
    refine ⟨now, ?_, h⟩
    rw [Build.substituteNode, run_bind_of_ok (Build.run_node_of_some hf), hkind]
    simp [hk]
  | _ =>
    refine ⟨now, ?_, h⟩
    rw [Build.substituteNode, run_bind_of_ok (Build.run_node_of_some hf), hkind]
    rfl

/-- The walk through some parts of an expression leaves every one of them as it is. -/
theorem Adds.run_substituteParts (h : d.Adds now reads) {parts : List NodeId}
    (hk : ∀ other, k.getD other other = other)
    (hstep : ∀ {now k}, d.Adds now reads → (∀ other, k.getD other other = other) →
      ∀ part ∈ parts, ∃ after, (Build.substituteNode bs k part).run now = (.ok part, after) ∧
        d.Adds after reads) :
    ∃ results last, (Build.substituteParts bs parts k).run now = (.ok results, last) ∧
      d.Adds last reads ∧ ∀ other, results.getD other other = other := by
  induction parts generalizing now k with
  | nil => exact ⟨k, now, rfl, h, hk⟩
  | cons part rest ih =>
    obtain ⟨after, hr, hafter⟩ := hstep h hk part mem_cons_self
    have hins : ∀ other, (k.insert part part).getD other other = other := by
      intro other
      rw [Std.HashMap.getD_insert]
      split
      · exact eq_of_beq ‹_›
      · exact hk other
    obtain ⟨results, last, hlast, hres⟩ := ih hafter hins
      fun h hk part hp ↦ hstep h hk part (mem_cons_of_mem _ hp)
    refine ⟨results, last, ?_, hres⟩
    rw [Build.substituteParts, foldlM_cons, bind_assoc, run_bind_of_ok hr]
    exact hlast

/-- The address lies on the way from a bound one to one that the expression reads. -/
def Passes (d : Draft) (bs : Bindings) (id part : NodeId) : Prop :=
  ∃ read ∈ d.graph.closure Node.isComputed id, ∃ addr v path, d.Reads read addr ∧
    d.binding? bs addr = some (v, path) ∧ part ∈ path

theorem Adds.size_eq (h : d.Adds now reads) (hreads : ∀ part, reads part → ∃ v, d.Reads v part) :
    now.graph.size = d.graph.size := by
  refine le_antisymm (not_lt.mp fun hlt ↦ ?_)
    (le_of_forall_lt fun pos hpos ↦ (h.graph.owns (⟨rfl, hpos⟩ : d.graph.Owns ⟨_, pos⟩)).2)
  obtain ⟨n, hn⟩ := Graph.owns_iff_node?.mp (⟨rfl, hlt⟩ : now.graph.Owns ⟨_, d.graph.size⟩)
  rcases h.added hn with hold | ⟨part, hpart, hk⟩
  · exact Nat.lt_irrefl _ (Graph.owns_of_node? hold).2
  · obtain ⟨v, m, hm, hmk⟩ := hreads part hpart
    obtain rfl := h.sound.eq_of_reads ⟨n, hn, hk⟩ ⟨m, h.graph.node? hm, hmk⟩
    exact Nat.lt_irrefl _ (Graph.owns_of_node? hm).2

/-- Bindings of addresses to their own reads leave an expression as it is. What they may add are
reads of the addresses on the way from a bound one to one that is read in the expression, and
nothing if all of these were read before. -/
theorem Reachable.substitute_own_reads {draft : Draft} (hreachable : draft.Reachable)
    (hlimit : 2 ≤ draft.options.replacementLimit) {bindings : Bindings} {id : NodeId}
    (howned : draft.graph.Owns id)
    (hwrites : ∀ part ∈ draft.graph.closure Node.isComputed id, ∀ node,
      draft.graph.node? part = some node → node.isWrite = false)
    (hbindings : ∀ read ∈ draft.graph.closure Node.isComputed id, ∀ address,
      draft.Reads read address → ∀ part ∈ draft.graph.lineage address, ∀ value,
        bindings[part]? = some value → draft.Reads value part) :
    ∃ after, (Build.substitute bindings id).run draft = (.ok id, after) ∧
      draft.Precedes after ∧ draft.KeepsRest after ∧
      (∀ other node, after.graph.node? other = some node →
        draft.graph.node? other = some node ∨
          ∃ part, draft.Passes bindings id part ∧ node.kind = .read part) ∧
      ((∀ part, draft.Passes bindings id part → ∃ value, draft.Reads value part) →
        after.graph.size = draft.graph.size) := by
  have hsound := hreachable.sound
  have hstart : draft.Adds draft (draft.Passes bindings id) := .refl hsound
  have hstep {now k} (hnow : draft.Adds now (draft.Passes bindings id))
      (hk : ∀ other, k.getD other other = other)
      (part) (hpart : part ∈ draft.graph.closure Node.isComputed id) :
      ∃ after, (Build.substituteNode bindings k part).run now = (.ok part, after) ∧
        draft.Adds after (draft.Passes bindings id) := by
    obtain ⟨node, hnode⟩ := Graph.owns_iff_node?.mp (Graph.owns_of_mem_closure howned hpart)
    exact hnow.run_substituteNode hsound hlimit hnode (hwrites part hpart node hnode) hk
      (fun hkind ↦ hbindings part hpart _ ⟨node, hnode, hkind⟩)
      fun hkind hbound other hother ↦
        ⟨part, hpart, _, _, _, ⟨node, hnode, hkind⟩, hbound, hother⟩
  obtain ⟨results, after, hrun, hadds, hresults⟩ :=
    hstart.run_substituteParts (fun _ ↦ Std.HashMap.getD_empty) hstep
  refine ⟨after, ?_, hadds.toPrecedes, hadds.rest, fun _ _ ↦ hadds.added, hadds.size_eq⟩
  rw [run_substitute howned, run_bind_of_ok hrun, hresults]
  rfl

/-- The sine of the only entry of a grid, after the whole grid was read. -/
def entrySine : Draft :=
  (Draft.new 0 "f" .standard ⟨⟨"Grid", .template "array" ["Row"] (some 1)⟩ ::
    ⟨"Row", .template "array" ["double"] (some 1)⟩ :: TypeTable.scalars.newestFirst⟩
    .default).requested [.declare "grid" "Grid" .input, .read ⟨0, 0⟩, .index ⟨0, 0⟩ 0,
      .index ⟨0, 2⟩ 0, .read ⟨0, 3⟩, .apply "sin" [.node ⟨0, 4⟩]]

/-- The grid, bound to its own read. -/
def gridBinding : Bindings := (∅ : Bindings).insert ⟨0, 0⟩ ⟨0, 1⟩

/-- The row that the entry is in is read on the way. -/
theorem substitute_entrySine :
    let (outcome, after) := (Build.substitute gridBinding ⟨0, 5⟩).run entrySine
    outcome = .ok ⟨0, 5⟩ ∧ entrySine.graph.size = 6 ∧ after.graph.size = 7 := by
  cbv

theorem nodes_entrySine : entrySine.options.replacementLimit = 64 ∧
    entrySine.graph.Owns ⟨0, 5⟩ ∧
    entrySine.graph.closure Node.isComputed ⟨0, 5⟩ = [⟨0, 4⟩, ⟨0, 5⟩] ∧
    [⟨0, 1⟩, ⟨0, 4⟩, ⟨0, 5⟩].map (fun id ↦ (entrySine.graph.node? id).map Node.kind) =
      [some (.read ⟨0, 0⟩), some (.read ⟨0, 3⟩),
        some (.expression (.registered "sin" 0) [⟨0, 4⟩])] := by
  cbv

theorem Reachable.substitute_own_reads_entrySine : entrySine.Reachable ∧
    ∃ after, (Build.substitute gridBinding ⟨0, 5⟩).run entrySine = (.ok ⟨0, 5⟩, after) ∧
      ∀ other node, after.graph.node? other = some node →
        entrySine.graph.node? other = some node ∨
          ∃ part, entrySine.Passes gridBinding ⟨0, 5⟩ part ∧ node.kind = .read part := by
  have hreachable : entrySine.Reachable := .afterAll (.new ..) _
  obtain ⟨hlimit, howned, hclosure, hkinds⟩ := nodes_entrySine
  simp only [map_cons, map_nil, cons.injEq, Option.map_eq_some_iff, and_true] at hkinds
  obtain ⟨⟨whole, hwhole, hwk⟩, ⟨entry, hentry, hek⟩, sine, hsine, hsk⟩ := hkinds
  have hwrites : ∀ part ∈ entrySine.graph.closure Node.isComputed ⟨0, 5⟩, ∀ node,
      entrySine.graph.node? part = some node → node.isWrite = false := by
    simp [hclosure, hentry, hsine, Node.isWrite, hek, hsk]
  have hreads : ∀ read ∈ entrySine.graph.closure Node.isComputed ⟨0, 5⟩, ∀ address,
      entrySine.Reads read address → ∀ part ∈ entrySine.graph.lineage address, ∀ value,
        gridBinding[part]? = some value → entrySine.Reads value part := by
    simp [hclosure, Reads, gridBinding, Std.HashMap.getElem?_insert, hwhole, hwk]
  obtain ⟨after, hrun, -, -, hadded, -⟩ :=
    hreachable.substitute_own_reads (hlimit ▸ by decide) howned hwrites hreads
  exact ⟨hreachable, after, hrun, hadded⟩

end Draft

end DiffGraph
