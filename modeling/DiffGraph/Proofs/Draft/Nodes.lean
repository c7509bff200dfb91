import DiffGraph.Proofs.Draft.Invariant
import DiffGraph.Proofs.Draft.Keeping
import DiffGraph.Proofs.Graph.Lineage

/-!
Single nodes as elementary changes: constants, reads, arguments and writes. Every operation is
described twice. Its effect on the draft is a chain of changes, whether it fails or not; and where
it yields a node, the node is what was asked for.
-/

set_option autoImplicit false

namespace DiffGraph

open Stateful Draft Option List Graph

variable {t name : String} {addr id v : NodeId} {d draft : Draft} {ids : List NodeId} {n : Node}

namespace Build

section Nodes

variable {d' : Draft} {kind : NodeKind} {isAddress : Bool}

theorem run_intern (owned : ∀ arg ∈ kind.operands, d.graph.Owns arg) :
    (intern t kind isAddress).run d = (.ok (d.graph.intern t kind isAddress owned).1,
        { d with graph := (d.graph.intern t kind isAddress owned).2 }) :=
  dif_pos owned

theorem run_intern_refused (t : String) (isAddress : Bool)
    (h : ¬∀ arg ∈ kind.operands, d.graph.Owns arg) :
    ∃ e, (intern t kind isAddress).run d = (.error e, d) :=
  ⟨_, dif_neg h⟩

/-- A node that was built has operands of the draft. -/
theorem ok_of_run_intern (h : (intern t kind isAddress).run d = (.ok id, d')) :
    ∃ owned : ∀ arg ∈ kind.operands, d.graph.Owns arg,
      id = (d.graph.intern t kind isAddress owned).1 ∧
        d' = { d with graph := (d.graph.intern t kind isAddress owned).2 } := by
  by_cases owned : ∀ arg ∈ kind.operands, d.graph.Owns arg
  · rw [run_intern owned] at h
    cases h
    exact ⟨owned, rfl, rfl⟩
  · obtain ⟨e, he⟩ := run_intern_refused t isAddress owned
    rw [he] at h
    cases h

/-- What is stored is found again. -/
theorem run_intern_self (h : d.Sound) (hn : d.graph.node? id = some n) :
    (intern n.type n.kind n.isAddress).run d = (.ok id, d) := by
  have howd : ∀ operand ∈ n.kind.operands, d.graph.Owns operand := fun _ hop ↦ owns_operand hn hop
  have hix : d.graph.index[(n.type, n.kind)]? = some id :=
    (h.interned.index_iff _ _ _).mpr ⟨n, hn, rfl, rfl⟩
  rw [run_intern howd]
  rcases intern_cases howd with ⟨m, hf, heq⟩ | ⟨newer, hfr, -⟩
  · rw [heq, some.inj (hf.symm.trans hix)]
  · cases hfr.symm.trans hix

theorem intern_enlarges (hforms : d.Forms t kind isAddress) :
    Enlarges d ((intern t kind isAddress).run d).2 := by
  by_cases owned : ∀ arg ∈ kind.operands, d.graph.Owns arg
  · rw [run_intern owned]
    exact .node hforms owned
  · obtain ⟨e, he⟩ := run_intern_refused t isAddress owned
    rw [he]
    exact refl d

theorem intern_keepsRest (t : String) (kind : NodeKind) (isAddress : Bool) (d : Draft) :
    KeepsRest d ((intern t kind isAddress).run d).2 := by
  by_cases owned : ∀ arg ∈ kind.operands, d.graph.Owns arg
  · rw [run_intern owned]
    rfl
  · obtain ⟨e, he⟩ := run_intern_refused t isAddress owned
    rw [he]
    rfl

/-- Questions and single nodes that are not expressions keep the condition. -/
structure Forming (cond : Draft → Prop) (failing : Error → Draft → Prop) : Prop where
  allows : Allows cond failing
  intern : ∀ ⦃d : Draft⦄ ⦃t : String⦄ ⦃kind : NodeKind⦄, d.Forms t kind false →
    (∀ op args, kind ≠ .expression op args) → cond d →
      KeepsAt cond failing (Build.intern t kind false) d

namespace Forming

variable {cond : Draft → Prop} {failing : Error → Draft → Prop}

theorem of_moves {R : Draft → Draft → Prop} [IsPreorder Draft R] {s : Draft}
    (h : ∀ ⦃d : Draft⦄ ⦃t : String⦄ ⦃kind : NodeKind⦄, d.Forms t kind false →
      R d ((Build.intern t kind false).run d).2) : Forming (R s) fun _ ↦ R s :=
  ⟨fun _ _ _ hd ↦ hd, fun _ _ _ hforms _ hd ↦ keepsAt_of_moves hd (h hforms)⟩

variable (h : Forming cond failing)

include h

theorem constant (t : String) (v : Value) : Keeps cond failing (Build.constant t v) := by
  refine fun d hd ↦ KeepsAt.bind (h.allows.lookupType t hd) fun _ s hr hs ↦ ?_
  obtain ⟨hdef, rfl⟩ := ok_of_run_lookupType hr
  exact h.intern (.constant v hdef) (fun _ _ h ↦ by cases h) hs

theorem one (t : String) : Keeps cond failing (Build.one t) := by
  refine (h.allows.lookupType t).bind fun defn ↦ ?_
  split
  · exact h.constant _ _
  · exact h.constant _ _
  · exact h.constant _ _
  · exact h.allows.fails trivial
  · exact h.allows.fails trivial

theorem read (addr : NodeId) : Keeps cond failing (Build.read addr) := by
  refine (h.allows.checkOwned addr).bind fun _ d hd ↦ ?_
  refine KeepsAt.bind (h.allows.node addr hd) fun n s hf hs ↦ ?_
  obtain ⟨hn, rfl⟩ := ok_of_run_node hf
  split
  next haddr => exact h.intern (.read hn haddr) (fun _ _ h ↦ by cases h) hs
  next => exact h.allows.describe_failure _ (fun _ ↦ by trivial) hs

theorem valueOf (id : NodeId) : Keeps cond failing (Build.valueOf id) := by
  refine (h.allows.node id).bind fun n ↦ ?_
  split
  · exact h.read id
  · exact keeps_pure id

theorem writtenValue (t : String) (v : Operand) : Keeps cond failing (Build.writtenValue t v) := by
  cases v with
  | node id => exact (h.allows.checkOwned id).bind fun _ ↦ h.valueOf id
  | float | int => exact h.constant _ _

end Forming

theorem forming_enlarges (d : Draft) : Forming d.Enlarges fun _ ↦ d.Enlarges :=
  .of_moves fun _ _ _ ↦ intern_enlarges

theorem forming_keepsRest (d : Draft) : Forming d.KeepsRest fun _ ↦ d.KeepsRest :=
  .of_moves fun _ _ _ _ ↦ intern_keepsRest _ _ _ _

theorem constant_enlarges (t : String) (v : Value) (d : Draft) :
    Enlarges d ((constant t v).run d).2 :=
  ((forming_enlarges d).constant t v).moves

theorem read_enlarges (addr : NodeId) (d : Draft) : Enlarges d ((read addr).run d).2 :=
  ((forming_enlarges d).read addr).moves

theorem valueOf_enlarges (id : NodeId) (d : Draft) : Enlarges d ((valueOf id).run d).2 :=
  ((forming_enlarges d).valueOf id).moves

theorem constant_keepsRest (t : String) (v : Value) (d : Draft) :
    KeepsRest d ((constant t v).run d).2 :=
  ((forming_keepsRest d).constant t v).moves

theorem read_keepsRest (addr : NodeId) (d : Draft) : KeepsRest d ((read addr).run d).2 :=
  ((forming_keepsRest d).read addr).moves

theorem valueOf_keepsRest (id : NodeId) (d : Draft) : KeepsRest d ((valueOf id).run d).2 :=
  ((forming_keepsRest d).valueOf id).moves

/-- An address can be read. -/
theorem run_read (hn : draft.graph.node? addr = some n) (haddr : n.isAddress = true) :
    (read addr).run draft = (intern n.type (.read addr) false).run draft := by
  rw [read, run_bind_of_ok (run_checkOwned_of_owns (owns_of_node? hn)),
    run_bind_of_ok (run_node_of_some hn), if_pos haddr]

theorem ok_of_run_read (hs : d.Sound) (h : (read addr).run d = (.ok id, d')) :
    ∃ tgt n, d.graph.node? addr = some tgt ∧ tgt.isAddress = true ∧
      d'.graph.node? id = some n ∧ n.kind = .read addr ∧
        n.type = tgt.type ∧ n.isAddress = false := by
  have haf := (read_enlarges addr d).sound h hs
  unfold read at h
  obtain ⟨_, s, hchecked, hrs⟩ := ok_of_run_bind h
  obtain ⟨-, rfl⟩ := ok_of_run_checkOwned hchecked
  obtain ⟨tgt, s', hf, hrd⟩ := ok_of_run_bind hrs
  obtain ⟨htg, rfl⟩ := ok_of_run_node hf
  split at hrd
  next haddr =>
    obtain ⟨owned, rfl, rfl⟩ := ok_of_run_intern hrd
    obtain ⟨n, hn, ht, hk⟩ := node?_intern hs.interned owned
    exact ⟨tgt, n, htg, haddr, hn, hk, ht, (haf.read hn hk).1⟩
  next =>
    obtain ⟨_, _, _, hthrow⟩ := ok_of_run_bind hrd
    cases hthrow

/-- A node as a value has the node's type. -/
theorem ok_of_run_valueOf (hs : d.Sound) (h : (valueOf id).run d = (.ok v, d')) :
    ∃ node, d.graph.node? id = some node ∧ d'.HoldsValue v node.type := by
  unfold valueOf at h
  obtain ⟨node, s, hf, hrs⟩ := ok_of_run_bind h
  obtain ⟨hn, rfl⟩ := ok_of_run_node hf
  refine ⟨node, hn, ?_⟩
  split at hrs
  next haddr =>
    obtain ⟨tgt, m, htg, -, hf', -, ht, hv⟩ := ok_of_run_read hs hrs
    obtain rfl : tgt = node := some.inj (htg.symm.trans hn)
    exact ⟨m, hf', ht, hv⟩
  next haddr =>
    obtain ⟨rfl, rfl⟩ := ok_of_run_pure hrs
    exact ⟨node, hn, rfl, Bool.eq_false_iff.mpr haddr⟩

theorem ok_of_run_mapM_typeOf {ts : List String} (h : (ids.mapM typeOf).run draft = (.ok ts, d')) :
    List.Forall₂ draft.HasType ids ts ∧ d' = draft := by
  induction ids generalizing ts with
  | nil =>
    rw [mapM_nil] at h
    obtain ⟨rfl, rfl⟩ := ok_of_run_pure h
    exact ⟨.nil, rfl⟩
  | cons id ids ih =>
    obtain ⟨t, rest, s, ht, hrs, rfl⟩ := ok_of_run_mapM_cons h
    obtain ⟨hhd, rfl⟩ := ok_of_run_typeOf ht
    obtain ⟨htail, rfl⟩ := ih hrs
    exact ⟨.cons hhd htail, rfl⟩

theorem exists_types (h : ∀ id ∈ ids, d.graph.Owns id) :
    ∃ types, List.Forall₂ d.HasType ids types := by
  induction ids with
  | nil => exact ⟨[], .nil⟩
  | cons id ids ih =>
    obtain ⟨how, hos⟩ := forall_mem_cons.mp h
    obtain ⟨types, hts⟩ := ih hos
    obtain ⟨n, hn⟩ := owns_iff_node?.mp how
    exact ⟨n.type :: types, .cons ⟨n, hn, rfl⟩ hts⟩

theorem holdsValue_of_run_mapM_valueOf {values : List NodeId} {types : List String} (hs : d.Sound)
    (hts : List.Forall₂ d.HasType ids types) (h : (ids.mapM valueOf).run d = (.ok values, d')) :
    List.Forall₂ d'.HoldsValue values types := by
  induction ids generalizing d values types with
  | nil =>
    cases hts
    rw [mapM_nil] at h
    obtain ⟨rfl, rfl⟩ := ok_of_run_pure h
    exact .nil
  | cons id ids ih =>
    cases hts with | cons hhd htail
    obtain ⟨v, rest, s, hv, hrs, rfl⟩ := ok_of_run_mapM_cons h
    have hl := (valueOf_enlarges id d).precedes hv hs
    have hs' := (valueOf_enlarges id d).sound hv hs
    obtain ⟨node, hn, hholds⟩ := ok_of_run_valueOf hs hv
    obtain ⟨m, hf, rfl⟩ := hhd
    obtain rfl : m = node := some.inj (hf.symm.trans hn)
    have hla := (moves_mapM (fun id _ ↦ valueOf_enlarges id) s).precedes hrs hs'
    exact .cons (hholds.later hla) (ih hs' (htail.imp fun _ _ h ↦ h.later hl) hrs)

theorem ok_of_run_constant {v : Value} (hs : d.Sound) (h : (constant t v).run d = (.ok id, d')) :
    ∃ defn n, d.types.get? t = some defn ∧ d'.graph.node? id = some n ∧ n.type = t ∧
        n.kind = .constant (defn.normalize v) ∧ n.isAddress = false := by
  have haf := (constant_enlarges t v d).sound h hs
  unfold constant at h
  obtain ⟨defn, s, hlk, hintern⟩ := ok_of_run_bind h
  obtain ⟨hdef, rfl⟩ := ok_of_run_lookupType hlk
  obtain ⟨owned, rfl, rfl⟩ := ok_of_run_intern hintern
  obtain ⟨n, hn, ht, hk⟩ := node?_intern hs.interned owned
  exact ⟨defn, n, hdef, hn, ht, hk, (haf.constant hn hk).1⟩

end Nodes

section Memory

variable {d' : Draft}

theorem run_argument (h : d.arguments.lookup name = some id) :
    (argument name).run d = (.ok id, d) := by
  rw [argument, run_query, Draft.argument, h]

theorem run_declareArgument {dir : Direction} (hfr : d.arguments.lookup name = none)
    (owned : ∀ arg ∈ (NodeKind.argument name dir).operands, d.graph.Owns arg) :
    (declareArgument name t dir).run d = (.ok (d.graph.intern t (.argument name dir) true owned).1,
        { d with
          graph := (d.graph.intern t (.argument name dir) true owned).2
          arguments := d.arguments ++
            [(name, (d.graph.intern t (.argument name dir) true owned).1)] }) := by
  rw [declareArgument, run_get_bind]
  rw [if_neg (by rw [hfr]; exact Bool.false_ne_true)]
  rw [run_bind_of_ok (run_intern owned), run_bind_of_ok (run_modify _ _)]
  rfl

theorem declareArgument_leads (name : String) (dir : Direction)
    (ht : (d.types.get? t).isSome = true) :
    Leads d ((declareArgument name t dir).run d).2 := by
  cases hfr : d.arguments.lookup name with
  | none =>
    have owned : ∀ operand ∈ (NodeKind.argument name dir).operands,
        d.graph.Owns operand := forall_mem_nil _
    rw [run_declareArgument hfr owned]
    exact .of_step (.argument t ht hfr owned)
  | some id =>
    refine moves_bind (Leads.refl d) fun m s hg ↦ ?_
    obtain ⟨rfl, rfl⟩ := ok_of_run_get hg
    rw [hfr]
    exact moves_throw _ _

theorem declare_leads (name t : String) (dir : Direction) (d : Draft) :
    Leads d ((declare name t dir).run d).2 := by
  refine moves_bind (moves_query _ _) fun defn d' hlk ↦ ?_
  obtain ⟨hdef, rfl⟩ := ok_of_run_lookupType hlk
  exact declareArgument_leads _ _ (by rw [hdef]; rfl)

theorem writtenValue_enlarges (t : String) (v : Operand) (d : Draft) :
    Enlarges d ((writtenValue t v).run d).2 :=
  ((forming_enlarges d).writtenValue t v).moves

theorem writtenValue_keepsRest (t : String) (v : Operand) (d : Draft) :
    KeepsRest d ((writtenValue t v).run d).2 :=
  ((forming_keepsRest d).writtenValue t v).moves

/-- What is written is a value. -/
theorem ok_of_run_writtenValue {v : Operand} (hs : d.Sound)
    (h : (writtenValue t v).run d = (.ok id, d')) :
    ∃ found, d'.HoldsValue id found := by
  cases v with
  | node src =>
    obtain ⟨_, s, hchecked, hv⟩ := ok_of_run_bind h
    obtain ⟨-, rfl⟩ := ok_of_run_checkOwned hchecked
    obtain ⟨node, -, hholds⟩ := ok_of_run_valueOf hs hv
    exact ⟨node.type, hholds⟩
  | float | int =>
    obtain ⟨_, node, -, hn, ht, -, haddr⟩ := ok_of_run_constant hs h
    exact ⟨t, node, hn, ht, haddr⟩

/-- A write is formed and recorded in one change. -/
theorem internWrite_leads (hw : d.MayWrite addr v t) : Leads d ((do
      let id ← intern t (.write addr v) false
      recordWrite id
      return id : Build NodeId).run d).2 := by
  by_cases owned : ∀ arg ∈ (NodeKind.write addr v).operands, d.graph.Owns arg
  · rw [run_bind_of_ok (run_intern owned), recordWrite, run_bind_of_ok (run_modify _ _)]
    refine .of_step ?_
    have hstep := Step.write hw owned
    simp only [run_pure]
    split at hstep
    next hls => rwa [if_pos hls]
    next hmissing => rwa [if_neg hmissing]
  · obtain ⟨e, he⟩ := run_intern_refused t false owned
    rw [run_bind_of_error he]
    exact .refl d

theorem argument?_eq_some {direction : Direction} :
    n.argument? = some (name, direction) ↔ n.kind = .argument name direction := by
  unfold Node.argument?
  cases hk : n.kind <;> simp

/-- An address is an argument or a part of one. -/
theorem exists_root (hs : d.Sound) (hn : d.graph.node? addr = some n) (haddr : n.isAddress = true) :
    ∃ root arg name direction, d.graph.root? addr = some root ∧
      d.graph.node? root = some arg ∧ arg.kind = .argument name direction := by
  induction hix : addr.index using Nat.strongRecOn generalizing addr n with
  | ind index ih =>
    rcases hs.address_cases hn haddr with
      ⟨name, direction, hk⟩ | ⟨base, tgt, op, htg, hta, hk, hopt⟩
    · have harg : n.isArgument = true := by
        rw [Node.isArgument, argument?_eq_some.mpr hk]
        rfl
      have hrt := root?_of_argument hn harg (by rw [hk]; rfl)
      exact ⟨addr, n, name, direction, hrt, hn, hk⟩
    · have hba : n.kind.base? = some base := by
        rw [hk]
        rcases hopt with ⟨field, rfl⟩ | ⟨pos, rfl⟩ <;> rfl
      have hlt := operand_index_lt hn (NodeKind.base?_mem_operands hba)
      rw [root?_of_base hn hba]
      exact ih base.index (by omega) htg hta rfl

/-- An address that is not part of an input is not part of one later. -/
theorem not_input_later (hl : d.Precedes d') (how : d.graph.Owns addr)
    (h : ∀ name, ((d.graph.root? addr).bind d.graph.node?).bind Node.argument? ≠ some (name, .input))
    (root : NodeId) (node : Node) (name : String) (hrt : d'.graph.root? addr = some root)
    (hn : d'.graph.node? root = some node) : node.kind ≠ .argument name .input := by
  intro hk
  rw [root?_extends hl.graph how] at hrt
  obtain ⟨old, hold⟩ := owns_iff_node?.mp (owns_root? how hrt)
  obtain rfl : old = node := some.inj ((hl.graph.node? hold).symm.trans hn)
  refine h name ?_
  rw [hrt, bind_some, hold, bind_some]
  exact argument?_eq_some.mpr hk

theorem write_leads (addr : NodeId) (v : Operand) (d : Draft) :
    Leads d ((write addr v).run d).2 := by
  refine .of_sound fun hs ↦ ?_
  unfold write
  refine moves_bind (moves_query _ _) fun _ s hchecked ↦ ?_
  obtain ⟨how, rfl⟩ := ok_of_run_checkOwned hchecked
  refine moves_bind (moves_query _ _) fun tgt s' hf ↦ ?_
  obtain ⟨htg, rfl⟩ := ok_of_run_node hf
  split
  · exact moves_bind (Leads.refl _) fun _ _ _ ↦ moves_throw _ _
  next haddr =>
    refine moves_bind (Leads.refl s') fun m s hg ↦ ?_
    obtain ⟨rfl, rfl⟩ := ok_of_run_get hg
    dsimp only
    split
    · exact moves_throw _ _
    next hrt =>
      have hwritten := (writtenValue_enlarges tgt.type v s).leads
      refine moves_bind hwritten fun src d' hsrc ↦ ?_
      have hl := hwritten.precedes hsrc hs
      obtain ⟨t, hholds⟩ := ok_of_run_writtenValue hs hsrc
      refine moves_bind (moves_typeOf _ _) fun m last ht ↦ ?_
      obtain ⟨⟨node, hn, rfl⟩, rfl⟩ := ok_of_run_typeOf ht
      split
      · exact moves_bind (Leads.refl _) fun _ _ _ ↦ moves_throw _ _
      next hsame =>
        refine internWrite_leads ⟨⟨tgt, hl.graph.node? htg, ?_, rfl⟩, ?_, ?_⟩
        · simpa using haddr
        · obtain ⟨source', hsource', ht', hv'⟩ := hholds
          obtain rfl : source' = node := some.inj (hsource'.symm.trans hn)
          exact ⟨source', hn, Decidable.not_not.mp hsame, hv'⟩
        · exact not_input_later hl how fun name h ↦ hrt name h

/-- A write to an address is recorded unless it was made before. -/
theorem ok_of_run_write_any {arg : Operand} (hs : d.Sound)
    (h : (write addr arg).run d = (.ok id, d')) :
    ∃ tgt n v, d.graph.node? addr = some tgt ∧ tgt.isAddress = true ∧
      d'.graph.node? id = some n ∧ n.kind = .write addr v ∧
      d'.writes = (if id ∈ d.writes then d.writes else d.writes ++ [id]) ∧
      d'.elementsWritten = d.elementsWritten := by
  unfold write at h
  obtain ⟨_, s, hchecked, hrs⟩ := ok_of_run_bind h
  obtain ⟨-, rfl⟩ := ok_of_run_checkOwned hchecked
  obtain ⟨tgt, s', hf, hw⟩ := ok_of_run_bind hrs
  obtain ⟨htg, rfl⟩ := ok_of_run_node hf
  split at hw
  · obtain ⟨_, _, -, hthrow⟩ := ok_of_run_bind hw
    cases hthrow
  next haddr =>
  obtain ⟨m, s, hg, hrt⟩ := ok_of_run_bind hw
  obtain ⟨rfl, rfl⟩ := ok_of_run_get hg
  dsimp only at hrt
  split at hrt
  · cases hrt
  obtain ⟨v, written, hv, hty⟩ := ok_of_run_bind hrt
  obtain ⟨t, s, ht, hmatch⟩ := ok_of_run_bind hty
  obtain ⟨-, rfl⟩ := ok_of_run_typeOf ht
  split at hmatch
  · obtain ⟨_, _, -, hthrow⟩ := ok_of_run_bind hmatch
    cases hthrow
  obtain ⟨formed, s, hintern, hrecorded⟩ := ok_of_run_bind hmatch
  obtain ⟨owned, rfl, rfl⟩ := ok_of_run_intern hintern
  obtain ⟨_, s, hrecord, hret⟩ := ok_of_run_bind hrecorded
  obtain ⟨rfl, rfl⟩ := ok_of_run_pure hret
  obtain rfl := ok_of_run_modify hrecord
  have hkept := (writtenValue_keepsRest _ _ _).of_run hv
  have haf := (writtenValue_enlarges _ _ _).sound hv hs
  have hformed : ∃ n, (s.graph.intern tgt.type (.write addr v) false owned).2.node?
      (s.graph.intern tgt.type (.write addr v) false owned).1 = some n ∧ _ :=
    node?_intern haf.interned owned
  obtain ⟨n, hn, -, hk⟩ := hformed
  refine ⟨tgt, n, v, htg, by simpa using haddr, ?_⟩
  rw [← hkept.writes, ← hkept.elementsWritten]
  simp only [contains_iff_mem]
  split
  next hls => exact ⟨hn, hk, rfl, rfl⟩
  next hmissing => exact ⟨hn, hk, rfl, rfl⟩

end Memory

end Build

end DiffGraph
