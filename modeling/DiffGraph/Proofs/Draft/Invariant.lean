import DiffGraph.Proofs.Draft.Changes
import DiffGraph.Proofs.Operator.Plans

/-!
The invariant of drafts. The graph is interned, every node was formed under the conditions that an
elementary change asks for, and the lists of arguments and writes name exactly the nodes of these
kinds, once each. Every elementary change keeps the invariant, so every chain of changes does.
-/

set_option autoImplicit false

namespace DiffGraph

open List Graph

variable {newer older d draft d' after : Draft} {id addr v : NodeId} {name : String} {α : Type}
  {dir : Direction} {entries : List (String × NodeId)}

namespace Draft

/-- How a node came into the draft. -/
inductive Origin (d : Draft) (id : NodeId) (node : Node) : Prop
  | formed {before : Draft} (hbf : before.Precedes d)
      (hforms : before.Forms node.type node.kind node.isAddress)
  | argument {name : String} {dir : Direction} (hk : node.kind = .argument name dir)
      (haddr : node.isAddress = true) (hls : (name, id) ∈ d.arguments)
  | write {before : Draft} {addr v : NodeId} (hk : node.kind = .write addr v)
      (haddr : node.isAddress = false) (hbf : before.Precedes d)
      (hw : before.MayWrite addr v node.type) (hls : id ∈ d.writes)

theorem Origin.later (h : older.Precedes newer) {node : Node} (horigin : older.Origin id node) :
    newer.Origin id node := by
  cases horigin with
  | formed hbf hforms => exact .formed (hbf.trans h) hforms
  | argument hk haddr hls =>
    exact .argument hk haddr (h.arguments.subset hls)
  | write hk haddr hbf hw hls =>
    exact .write hk haddr (hbf.trans h) hw (h.writes.subset hls)

structure Sound (d : Draft) : Prop where
  interned : d.graph.Interned
  origin : ∀ {id : NodeId} {n : Node}, d.graph.node? id = some n → d.Origin id n
  arguments : ∀ {name : String} {id : NodeId}, (name, id) ∈ d.arguments →
    ∃ n dir, d.graph.node? id = some n ∧ n.kind = .argument name dir ∧
      (d.types.get? n.type).isSome = true
  arguments_nodup : (d.arguments.map Prod.fst).Nodup
  writes : ∀ {id : NodeId}, id ∈ d.writes →
    ∃ n addr v, d.graph.node? id = some n ∧ n.kind = .write addr v
  writes_nodup : d.writes.Nodup
  writes_sorted : d.writes.Pairwise fun earlier later ↦ earlier.index < later.index

theorem sound_new (owner : Nat) (name : String) (operators : Registry) (ts : TypeTable)
    (options : Options) : (Draft.new owner name operators ts options).Sound where
  interned := interned_empty owner
  origin h := by simp [Draft.new, Graph.empty, Graph.node?] at h
  arguments h := by simp [Draft.new] at h
  arguments_nodup := nodup_nil
  writes h := by simp [Draft.new] at h
  writes_nodup := nodup_nil
  writes_sorted := .nil

/-- A change that leaves graph, arguments and writes alone. -/
theorem Sound.of_precedes (hs : older.Sound) (h : older.Precedes newer)
    (hgraph : newer.graph = older.graph) (hargs : newer.arguments = older.arguments)
    (hws : newer.writes = older.writes) : newer.Sound where
  interned := hgraph ▸ hs.interned
  origin hn := by
    rw [hgraph] at hn
    exact (hs.origin hn).later h
  arguments hls := by
    rw [hargs] at hls
    obtain ⟨n, dir, hn, hk, ht⟩ := hs.arguments hls
    exact ⟨n, dir, hgraph ▸ hn, hk, (h.types.isSome_get? _).trans ht⟩
  arguments_nodup := hargs ▸ hs.arguments_nodup
  writes hls := by
    rw [hws] at hls
    rw [hgraph]
    exact hs.writes hls
  writes_nodup := hws ▸ hs.writes_nodup
  writes_sorted := hws ▸ hs.writes_sorted

section Nodes

variable {t type : String} {kind : NodeKind} {isAddress : Bool}

/-- Where the nodes of a draft come from after one of them was built. -/
theorem Sound.origin_intern (hs : d.Sound) (owned : ∀ arg ∈ kind.operands, d.graph.Owns arg)
    (hgraph : newer.graph = (d.graph.intern t kind isAddress owned).2) (h : d.Precedes newer)
    (hnew : ∀ node : Node, node.type = t → node.kind = kind → node.isAddress = isAddress → newer.Origin (d.graph.intern t kind isAddress owned).1 node)
    {node : Node} (hn : newer.graph.node? id = some node) : newer.Origin id node := by
  rw [hgraph] at hn
  rcases node?_intern_cases owned hn with hold | ⟨rfl, ht, hk, haddr⟩
  · exact (hs.origin hold).later h
  · exact hnew node ht hk haddr

theorem Sound.step_node (hs : d.Sound) (hforms : d.Forms t kind isAddress)
    (owned : ∀ arg ∈ kind.operands, d.graph.Owns arg) :
    ({ d with graph := (d.graph.intern t kind isAddress owned).2 } : Draft).Sound := by
  have hpr := (Step.node hforms owned).precedes
  refine ⟨interned_intern hs.interned owned, fun hn ↦ ?_, fun hls ↦ ?_,
    hs.arguments_nodup, fun hls ↦ ?_, hs.writes_nodup, hs.writes_sorted⟩
  · refine hs.origin_intern owned rfl hpr (fun n ht hk haddr ↦ ?_) hn
    refine .formed hpr ?_
    rwa [ht, hk, haddr]
  · obtain ⟨n, dir, hn, hk, ht⟩ := hs.arguments hls
    exact ⟨n, dir, hpr.graph.node? hn, hk, ht⟩
  · obtain ⟨n, addr, v, hn, hk⟩ := hs.writes hls
    exact ⟨n, addr, v, hpr.graph.node? hn, hk⟩

theorem Sound.step_argument (hs : d.Sound)
    (ht : (d.types.get? t).isSome = true) (hfr : d.arguments.lookup name = none)
    (owned : ∀ arg ∈ (NodeKind.argument name dir).operands, d.graph.Owns arg) :
    ({ d with
        graph := (d.graph.intern t (.argument name dir) true owned).2
        arguments := d.arguments ++
          [(name, (d.graph.intern t (.argument name dir) true owned).1)] } :
      Draft).Sound := by
  have hpr := (Step.argument t ht hfr owned).precedes
  refine ⟨interned_intern hs.interned owned, fun hn ↦ ?_, fun hls ↦ ?_, ?_,
    fun hls ↦ ?_, hs.writes_nodup, hs.writes_sorted⟩
  · refine hs.origin_intern owned rfl hpr (fun n ht hk haddr ↦ ?_) hn
    exact .argument hk haddr (mem_append_right _ mem_cons_self)
  · rcases mem_append.mp hls with hold | hnew
    · obtain ⟨n, dir, hn, hk, hkn⟩ := hs.arguments hold
      exact ⟨n, dir, hpr.graph.node? hn, hk, hkn⟩
    · obtain ⟨rfl, rfl⟩ := Prod.mk.inj (mem_singleton.mp hnew)
      obtain ⟨n, hn, hsame, hk⟩ := node?_intern hs.interned owned
      exact ⟨n, dir, hn, hk, hsame ▸ ht⟩
  · show ((d.arguments ++ _).map Prod.fst).Nodup
    rw [map_append, nodup_append]
    refine ⟨hs.arguments_nodup, pairwise_singleton _ _, ?_⟩
    intro other ho name' hname'
    obtain rfl : name' = name := mem_singleton.mp hname'
    rintro rfl
    obtain ⟨⟨_, id⟩, hm, rfl⟩ := mem_map.mp ho
    have hmissing := lookup_eq_none_iff.mp hfr _ hm
    simp at hmissing
  · obtain ⟨n, addr, v, hn, hk⟩ := hs.writes hls
    exact ⟨n, addr, v, hpr.graph.node? hn, hk⟩

/-- A write that is recorded is in the list once. -/
theorem mem_recorded {writes : List NodeId} {other : NodeId} :
    other ∈ (if writes.contains id then writes else writes ++ [id]) ↔
      other ∈ writes ∨ other = id := by
  by_cases hls : id ∈ writes
  · rw [if_pos (contains_iff_mem.mpr hls)]
    constructor
    · exact .inl
    · rintro (h | rfl)
      · exact h
      · exact hls
  · rw [if_neg (fun h ↦ hls (contains_iff_mem.mp h)), mem_append, mem_singleton]

/-- A write that is not listed yet is a new node, and comes after all others. -/
theorem Sound.sorted_recorded (hs : d.Sound)
    (owned : ∀ arg ∈ (NodeKind.write addr v).operands, d.graph.Owns arg) :
    (if d.writes.contains (d.graph.intern t (.write addr v) false owned).1
      then d.writes
      else d.writes ++ [(d.graph.intern t (.write addr v) false owned).1]).Pairwise
      fun earlier later ↦ earlier.index < later.index := by
  split
  · exact hs.writes_sorted
  next hmissing =>
    rcases intern_cases owned with ⟨id, hix, heq⟩ | ⟨newer, -, heq, -⟩
    · -- A write that was found is listed.
      rw [heq] at hmissing
      obtain ⟨⟨t, kind, isAddress, key⟩, hn, -, hk⟩ := (hs.interned.index_iff _ _ id).mp hix
      dsimp only at hk
      subst hk
      cases hs.origin hn with
      | formed hbf hforms => cases hforms
      | argument hk => cases hk
      | write _ _ _ _ hls => exact absurd (contains_iff_mem.mpr hls) hmissing
    · rw [heq, pairwise_append]
      refine ⟨hs.writes_sorted, pairwise_singleton _ _, fun other ho id hid ↦ ?_⟩
      obtain rfl := mem_singleton.mp hid
      obtain ⟨n, _, _, hn, -⟩ := hs.writes ho
      exact (owns_of_node? hn).2

theorem Sound.step_write (hs : d.Sound) (hw : d.MayWrite addr v t)
    (owned : ∀ arg ∈ (NodeKind.write addr v).operands, d.graph.Owns arg) :
    ({ d with
        graph := (d.graph.intern t (.write addr v) false owned).2
        writes :=
          if d.writes.contains (d.graph.intern t (.write addr v) false owned).1
          then d.writes
          else d.writes ++ [(d.graph.intern t (.write addr v) false owned).1] } :
      Draft).Sound := by
  have hpr := (Step.write hw owned).precedes
  refine ⟨interned_intern hs.interned owned, fun hn ↦ ?_, fun hls ↦ ?_,
    hs.arguments_nodup, fun hls ↦ ?_, ?_, hs.sorted_recorded owned⟩
  · refine hs.origin_intern owned rfl hpr (fun n ht hk haddr ↦ ?_) hn
    exact .write hk haddr hpr (ht ▸ hw) (mem_recorded.mpr (.inr rfl))
  · obtain ⟨n, dir, hn, hk, ht⟩ := hs.arguments hls
    exact ⟨n, dir, hpr.graph.node? hn, hk, ht⟩
  · rcases mem_recorded.mp hls with hold | rfl
    · obtain ⟨n, addr, v, hn, hk⟩ := hs.writes hold
      exact ⟨n, addr, v, hpr.graph.node? hn, hk⟩
    · obtain ⟨n, hn, -, hk⟩ := node?_intern hs.interned owned
      exact ⟨n, addr, v, hn, hk⟩
  · exact (hs.sorted_recorded owned).imp fun hlt heq ↦ Nat.ne_of_lt hlt (congrArg _ heq)

end Nodes

theorem Sound.step (hs : older.Sound) (h : Step older newer) : newer.Sound := by
  cases h with
  | node hforms owned => exact hs.step_node hforms owned
  | argument t ht hfr owned => exact hs.step_argument ht hfr owned
  | write hw owned => exact hs.step_write hw owned
  | types hm => exact hs.of_precedes (Step.types hm).precedes rfl rfl rfl
  | elementsWritten hws =>
    exact hs.of_precedes (Step.elementsWritten hws).precedes rfl rfl rfl
  | preamble m => exact hs.of_precedes (Step.preamble m).precedes rfl rfl rfl
  | postamble m => exact hs.of_precedes (Step.postamble m).precedes rfl rfl rfl

theorem Sound.steps (hs : older.Sound) (h : Steps older newer) : newer.Sound := by
  induction h with
  | refl => exact hs
  | tail _ hstep ih => exact ih.step hstep

/-- From a sound draft, a chain of elementary changes leads to the other draft. -/
def Leads (older newer : Draft) : Prop := older.Sound → Steps older newer

instance : IsPreorder Draft Leads where
  refl _ _ := .refl
  trans _ _ _ hfst hla hs := (hfst hs).trans (hla (hs.steps (hfst hs)))

theorem Leads.refl (draft : Draft) : draft.Leads draft := fun _ ↦ .refl

theorem Leads.of_sound (h : older.Sound → older.Leads newer) : older.Leads newer := fun hs ↦ h hs hs

/-- An operation that leads on from a sound draft ends in a sound draft. -/
theorem Leads.sound {x : Build α} {outcome : Except Error α}
    (h : d.Leads (x.run d).2) (hr : x.run d = (outcome, d')) (hs : d.Sound) : d'.Sound := by
  rw [hr] at h
  exact hs.steps (h hs)

theorem Leads.precedes {x : Build α} {outcome : Except Error α} (h : d.Leads (x.run d).2)
    (hr : x.run d = (outcome, after)) (hs : d.Sound) : d.Precedes after := by
  rw [hr] at h
  exact (h hs).precedes

theorem Leads.of_step (h : Step older newer) : older.Leads newer := fun _ ↦ .single h

/-- The drafts have the same arguments, the same writes in the same order, the same counts of
elements written one after another, and the same statements. -/
structure SameFunction (older newer : Draft) : Prop where
  arguments : newer.arguments = older.arguments
  writes : newer.writes = older.writes
  elementsWritten : newer.elementsWritten = older.elementsWritten
  preamble : newer.preamble = older.preamble
  postamble : newer.postamble = older.postamble

/-- If rules only build expressions, the function stays the same, and so do the operators. -/
def Retains (older newer : Draft) : Prop :=
  older.operators.Builds → newer.operators = older.operators ∧ older.SameFunction newer

theorem Retains.refl (draft : Draft) : draft.Retains draft := fun _ ↦ ⟨rfl, rfl, rfl, rfl, rfl, rfl⟩

instance : IsPreorder Draft Retains where
  refl := Retains.refl
  trans _ _ _ hfst hla hbld := by
    obtain ⟨hopr, hsame⟩ := hfst hbld
    obtain ⟨hoperators', hsame'⟩ := hla (hopr ▸ hbld)
    exact ⟨hoperators'.trans hopr, hsame'.arguments.trans hsame.arguments,
      hsame'.writes.trans hsame.writes, hsame'.elementsWritten.trans hsame.elementsWritten,
      hsame'.preamble.trans hsame.preamble, hsame'.postamble.trans hsame.postamble⟩

/-- From a sound draft, elementary changes lead to the other draft. They keep the function if rules
only build expressions. -/
def Enlarges (older newer : Draft) : Prop := older.Sound → Steps older newer ∧ older.Retains newer

instance : IsPreorder Draft Enlarges where
  refl draft _ := ⟨.refl, .refl draft⟩
  trans _ _ _ hfst hla hs := by
    obtain ⟨hsts, hretains⟩ := hfst hs
    obtain ⟨hsteps', hretains'⟩ := hla (hs.steps hsts)
    exact ⟨hsts.trans hsteps', IsTrans.trans _ _ _ hretains hretains'⟩

namespace Enlarges

theorem leads (h : older.Enlarges newer) : older.Leads newer := fun hs ↦ (h hs).1

theorem of_sound (h : older.Sound → older.Enlarges newer) : older.Enlarges newer := fun hs ↦ h hs hs

theorem sound {x : Build α} {outcome : Except Error α}
    (h : d.Enlarges (x.run d).2) (hr : x.run d = (outcome, d')) (hs : d.Sound) : d'.Sound :=
  h.leads.sound hr hs

theorem precedes {x : Build α} {outcome : Except Error α} (h : d.Enlarges (x.run d).2)
    (hr : x.run d = (outcome, after)) (hs : d.Sound) : d.Precedes after :=
  h.leads.precedes hr hs

theorem node {t : String} {kind : NodeKind} {isAddress : Bool} (hforms : d.Forms t kind isAddress)
    (owned : ∀ arg ∈ kind.operands, d.graph.Owns arg) :
    d.Enlarges { d with graph := (d.graph.intern t kind isAddress owned).2 } :=
  fun _ ↦ ⟨.single (.node hforms owned), fun _ ↦ ⟨rfl, rfl, rfl, rfl, rfl, rfl⟩⟩

theorem types {field : String} {m : Nat × String} {types : TypeTable}
    (hm : d.types.member name field = .ok (m, types)) :
    d.Enlarges { d with types } :=
  fun _ ↦ ⟨.single (.types hm), fun _ ↦ ⟨rfl, rfl, rfl, rfl, rfl, rfl⟩⟩

end Enlarges

theorem mem_of_lookup (h : entries.lookup name = some id) : (name, id) ∈ entries := by
  obtain ⟨earlier, later, rfl, -⟩ := lookup_eq_some_iff.mp h
  exact mem_append_right _ mem_cons_self

theorem lookup_of_mem (hnd : (entries.map Prod.fst).Nodup)
    (h : (name, id) ∈ entries) : entries.lookup name = some id := by
  obtain ⟨earlier, later, rfl⟩ := append_of_mem h
  refine lookup_eq_some_iff.mpr ⟨earlier, later, rfl, fun e hen ↦ ?_⟩
  rw [map_append, map_cons, nodup_append] at hnd
  exact bne_iff_ne.mpr (hnd.2.2 e.1 (mem_map_of_mem hen) name mem_cons_self).symm

section Contents

variable {n node : Node}

section

variable (hs : d.Sound) (hn : d.graph.node? id = some n)

include hs hn

theorem Sound.constant {v : Value} (hk : n.kind = .constant v) :
    n.isAddress = false ∧ ∃ (before : Draft) (defn : TypeDefinition),
      before.Precedes d ∧ before.types.get? n.type = some defn ∧
        ∃ given, v = defn.normalize given := by
  obtain ⟨t, kind, isAddress, key⟩ := n
  cases hk
  cases hs.origin hn with
  | formed hbf hforms =>
    cases hforms with
    | constant given hdef => exact ⟨rfl, _, _, hbf, hdef, given, rfl⟩
  | argument hk | write hk => cases hk

/-- A value that was read has the type of the address it was read from. -/
theorem Sound.read (hk : n.kind = .read addr) :
    n.isAddress = false ∧ ∃ tgt, d.graph.node? addr = some tgt ∧
      tgt.isAddress = true ∧ tgt.type = n.type := by
  obtain ⟨t, kind, isAddress, key⟩ := n
  cases hk
  cases hs.origin hn with
  | formed hbf hforms =>
    cases hforms with
    | read htg haddr => exact ⟨rfl, _, hbf.graph.node? htg, haddr, rfl⟩
  | argument hk | write hk => cases hk

theorem Sound.argument (hk : n.kind = .argument name dir) :
    n.isAddress = true ∧ (name, id) ∈ d.arguments := by
  obtain ⟨t, kind, isAddress, key⟩ := n
  cases hk
  cases hs.origin hn with
  | formed hbf hforms => cases hforms
  | argument hk haddr hls =>
    cases hk
    exact ⟨haddr, hls⟩
  | write hk => cases hk

theorem Sound.write (hk : n.kind = .write addr v) : n.isAddress = false ∧ id ∈ d.writes ∧
      ∃ before : Draft, before.Precedes d ∧ before.MayWrite addr v n.type := by
  obtain ⟨t, kind, isAddress, key⟩ := n
  cases hk
  cases hs.origin hn with
  | formed hbf hforms => cases hforms
  | argument hk => cases hk
  | write hk haddr hbf hw hls =>
    cases hk
    exact ⟨haddr, hls, _, hbf, hw⟩

/-- An expression was applicable when it was formed, and nothing simpler was found for it. -/
theorem Sound.expression
    {op : Operator} {operands : List NodeId} (hk : n.kind = .expression op operands) :
    ∃ before : Draft, before.Precedes d ∧ before.Fits op n.type operands n.isAddress ∧
        before.Irreducible op n.type operands := by
  obtain ⟨t, kind, isAddress, key⟩ := n
  cases hk
  cases hs.origin hn with
  | formed hbf hforms =>
    cases hforms with
    | expression hfi hirreducible => exact ⟨_, hbf, hfi, hirreducible⟩
  | argument hk | write hk => cases hk

/-- A registered operator is the one that the types of its operands call for. -/
theorem Sound.registered {pos : Nat} {args : List NodeId}
    (hk : n.kind = .expression (.registered name pos) args) :
    ∃ ov types, d.operators.resolve name types = some (pos, ov) ∧
      d.HasResult types n.type ov.result ∧ Forall₂ d.HoldsValue args types := by
  obtain ⟨before, hbf, hfi, -⟩ := hs.expression hn hk
  obtain ⟨ov, types, hrv, hres, hvs⟩ := hfi.of_registered
  exact ⟨ov, types, hbf.operators ▸ hrv, hres.extends hbf.types, hvs.imp fun _ _ hv ↦ hv.later hbf⟩

/-- An address is an argument, or a part of an address. -/
theorem Sound.address_cases (haddr : n.isAddress = true) :
    (∃ name dir, n.kind = .argument name dir) ∨
      ∃ base tgt op, d.graph.node? base = some tgt ∧ tgt.isAddress = true ∧
        n.kind = .expression op [base] ∧
          ((∃ field, op = .member field) ∨ ∃ pos, op = .index pos) := by
  cases hk : n.kind with
  | constant v =>
    rw [(hs.constant hn hk).1] at haddr
    cases haddr
  | argument name dir => exact .inl ⟨name, dir, rfl⟩
  | read addr =>
    rw [(hs.read hn hk).1] at haddr
    cases haddr
  | write addr v =>
    rw [(hs.write hn hk).1] at haddr
    cases haddr
  | expression op args =>
    obtain ⟨before, hbf, hfi, -⟩ := hs.expression hn hk
    obtain ⟨base, tgt, rfl, htg, hta, hopt⟩ := hfi.of_address haddr
    exact .inr ⟨base, tgt, op, hbf.graph.node? htg, hta, rfl, hopt⟩

end

theorem kind_of_isComputed (h : n.isComputed = true) :
    ∃ op args, n.kind = .expression op args ∧ n.isAddress = false := by
  unfold Node.isComputed at h
  split at h
  next op args hk => exact ⟨op, args, hk, by simpa using h⟩
  next => cases h

/-- What a value is computed from are values. -/
theorem Sound.value_operand (hs : d.Sound) (hn : d.graph.node? id = some n)
    (hcomp : n.isComputed = true) {arg : NodeId} (hop : arg ∈ n.operands) :
    ∃ type, d.HoldsValue arg type := by
  obtain ⟨op, args, hk, hv⟩ := kind_of_isComputed hcomp
  rw [Node.operands, hk] at hop
  change arg ∈ args at hop
  obtain ⟨before, hbf, hfi, -⟩ := hs.expression hn hk
  obtain ⟨type, hholds⟩ := hfi.value_operand hv hop
  exact ⟨type, hholds.later hbf⟩

end Contents

end Draft

end DiffGraph
