import DiffGraph.Proofs.Draft.Slots
import DiffGraph.Proofs.Draft.Valuation
import DiffGraph.Proofs.Operator.Standard

/-!
What the expressions of a regular draft cannot be. An expression was stored because nothing simpler
was found for it, so its operands are not all constants, and a value is never taken apart: slots of
constants, of constructed values and of values that were read are found instead.
-/

set_option autoImplicit false

namespace DiffGraph

open List Stateful Build TypeDefinition Registry Option

variable {args ids : List NodeId} {values : List Value} {op : Operator} {slot pos : Nat}
  {ts types : List String} {id base : NodeId} {n node tgt : Node} {t name : String}
  {newer older : Draft} {defn : TypeDefinition}

namespace Draft

section Irreducible

variable {d : Draft}

theorem Precedes.node?_of_owns (h : older.Precedes newer)
    (how : older.graph.Owns id) (hn : newer.graph.node? id = some node) :
    older.graph.node? id = some node := by
  obtain ⟨m, hf⟩ := Graph.owns_iff_node?.mp how
  rw [hf, ← h.graph.node? hf, hn]

theorem StoreConstants.earlier (h : older.Precedes newer)
    (howd : ∀ id ∈ ids, older.graph.Owns id) (hst : newer.StoreConstants ids ts values) :
    older.StoreConstants ids ts values := by
  induction hst with
  | nil => exact .nil
  | cons hfst _ ih =>
    obtain ⟨how, hos⟩ := forall_mem_cons.mp howd
    obtain ⟨n, hn, hrs⟩ := hfst
    exact .cons ⟨n, h.node?_of_owns how hn, hrs⟩ (ih hos)

/-- Conforming values for the operands of a node. -/
def OperandsConform (d : Draft) (args : List NodeId) (values : List Value) : Prop :=
  Forall₂ (fun arg v ↦ ∃ src, d.graph.node? arg = some src ∧
    d.types.Conforms v src.type) args values

theorem Regular.operandsConform (hreg : d.Regular)
    (h : d.StoreConstants ids ts values) : d.OperandsConform ids values := by
  induction h with
  | nil => exact .nil
  | cons hfst _ ih =>
    obtain ⟨n, hn, -, hk, -⟩ := hfst
    exact .cons ⟨n, hn, hreg.constants hn hk⟩ ih

theorem OperandsConform.conform (h : d.OperandsConform args values)
    (hts : Forall₂ d.HoldsValue args types) :
    Forall₂ d.types.Conforms values types := by
  induction h generalizing types with
  | nil =>
    cases hts
    exact .nil
  | cons hfst _ ih =>
    cases hts with
    | cons hhd htail =>
      obtain ⟨src, hsrc, hconforms⟩ := hfst
      obtain ⟨m, hf, rfl, -⟩ := hhd
      cases hsrc.symm.trans hf
      exact .cons hconforms (ih htail)

section

variable (hreg : d.Regular) (hs : d.Sound) (hn : d.graph.node? id = some n)

include hreg hs hn

/-- A registered operator has a result on conforming values. -/
theorem Regular.registered_result
    (hk : n.kind = .expression (.registered name pos) args) (hvs : d.OperandsConform args values) :
    ∃ res defn, d.types.get? n.type = some defn ∧
      d.result? n.type args values (.registered name pos) = some res ∧
        d.types.Conforms (defn.normalize res) n.type := by
  obtain ⟨ov, ts, hrv, hres, hops⟩ := hs.registered hn hk
  obtain ⟨hov, hacc⟩ := overload?_of_resolve hrv
  have hm := (mem_of_resolve hrv).1
  rw [hreg.operators] at hm
  obtain ⟨rule, res, t, defn, hru, happlied, hnd, hg, hconforms⟩ :=
    (standard_computes _ hm).evaluate hreg.types hacc (hvs.conform hops)
  rw [hnd] at hres
  obtain ⟨rfl, -⟩ := hres
  refine ⟨res, defn, hg, ?_, hconforms⟩
  rw [result?, hov, bind_some, hru, bind_some, happlied]

/-- Registered operators yield scalars. -/
theorem Regular.scalar_of_registered (hk : n.kind = .expression (.registered name pos) args) :
    ∃ defn kind, d.types.get? n.type = some defn ∧ defn.shape = .scalar kind := by
  obtain ⟨ov, ts, hrv, hres, -⟩ := hs.registered hn hk
  have hm := (mem_of_resolve hrv).1
  rw [hreg.operators] at hm
  obtain ⟨t, defn, kind, hnd, hg, hsh⟩ := (standard_computes _ hm).scalar_result hreg.types
  rw [hnd] at hres
  obtain ⟨rfl, -⟩ := hres
  exact ⟨defn, kind, hg, hsh⟩

section

variable (hk : n.kind = .expression .construct args)

include hk

/-- An aggregate is built from one operand for each of its slots. -/
theorem Regular.length_of_construct (hg : d.types.get? n.type = some defn)
    (hagg : defn.isAggregate = true) : defn.arity? = some args.length := by
  obtain ⟨before, hbf, hfi, -⟩ := hs.expression hn hk
  obtain ⟨m, hf, harity, -⟩ := hfi.of_construct
  rw [← hreg.types.eq_of_extends hbf.types, hg] at hf
  obtain rfl := some.inj hf
  have hdefinite := hreg.types.definite hg
  unfold TypeDefinition.arity? at harity ⊢
  generalize hsh : defn.shape = shape at hdefinite harity
  cases hdefinite with
  | scalar kind =>
    rw [TypeDefinition.isAggregate, hsh] at hagg
    cases hagg
  | record | template => exact congrArg some harity.symm

/-- A tuple of conforming values conforms to the aggregate that is built from them. -/
theorem Regular.conforms_tuple (hvs : d.OperandsConform args values)
    (hg : d.types.get? n.type = some defn) (hagg : defn.isAggregate = true) :
    d.types.Conforms (.tuple values) n.type := by
  refine ⟨defn, hg, hagg, ?_, ?_⟩
  · rw [hreg.length_of_construct hs hn hk hg hagg, hvs.length_eq]
  · refine TypeTable.conformFrom_iff.mpr fun pos v hv ↦ ?_
    obtain ⟨hlt, rfl⟩ := List.getElem?_eq_some_iff.mp hv
    have hop : pos < args.length := hvs.length_eq ▸ hlt
    obtain ⟨src, hsrc, hconforms⟩ := hvs.get hop hlt
    obtain ⟨m, hf, hsl⟩ := hreg.aggregates hn hk hg hagg pos args[pos] (getElem?_eq_getElem hop)
    cases hsrc.symm.trans hf
    exact ⟨src.type, (Nat.zero_add pos).symm ▸ hsl, hconforms⟩

/-- A constructor has a result on conforming values. -/
theorem Regular.construct_result (hvs : d.OperandsConform args values) :
    ∃ res defn, d.types.get? n.type = some defn ∧
      d.result? n.type args values .construct = some res ∧
        d.types.Conforms (defn.normalize res) n.type := by
  obtain ⟨before, hbf, hfi, -⟩ := hs.expression hn hk
  obtain ⟨defn, hg, harity, -⟩ := hfi.of_construct
  rw [← hreg.types.eq_of_extends hbf.types] at hg
  have hdefinite := hreg.types.definite hg
  generalize hsh : defn.shape = shape at hdefinite
  cases hdefinite with
  | scalar kind =>
    rw [TypeDefinition.arity?, hsh, getD_some] at harity
    obtain ⟨arg, rfl⟩ := length_eq_one_iff.mp harity
    obtain ⟨src, sourceDefinition, sourceKind, hsrc, hsourceGet, hsourceShape⟩ :=
      hreg.conversions hn hk hg hsh arg mem_cons_self
    obtain - | ⟨⟨m, hf, hconforms⟩, hno⟩ := hvs
    cases hno
    cases hsrc.symm.trans hf
    obtain ⟨res, hconvert, hres⟩ := hconforms.convert hsourceGet hsourceShape hg hsh
    refine ⟨res, defn, hg, ?_, hres.normalize hg⟩
    rw [result?, hg, bind_some, hsh]
    exact hconvert
  | record | template =>
    refine ⟨.tuple values, defn, hg, ?_, ?_⟩
    · rw [result?, hg, bind_some, hsh]
    · refine (hreg.conforms_tuple hs hn hk hvs hg ?_).normalize hg
      rw [TypeDefinition.isAggregate, hsh]

end

theorem Regular.exists_result (hk : n.kind = .expression op args) (hopt : op.isProjection = false)
    (hvs : d.OperandsConform args values) :
    ∃ res defn, d.types.get? n.type = some defn ∧ d.result? n.type args values op = some res ∧
        d.types.Conforms (defn.normalize res) n.type := by
  cases op with
  | registered name pos => exact hreg.registered_result hs hn hk hvs
  | construct => exact hreg.construct_result hs hn hk hvs
  | member | index => cases hopt

/-- An operator is not stored with constants in the place of all its operands. -/
theorem Regular.not_constants (hk : n.kind = .expression op args) (hopt : op.isProjection = false) :
    ¬d.StoreConstants args ts values := by
  intro hst
  obtain ⟨before, hbf, -, rest, start, hsta, -, howd, hev, -⟩ := hs.expression hn hk
  have hstarted := hsta.trans hbf
  obtain ⟨res, defn, -, hres, -⟩ := hreg.exists_result hs hn hk hopt (hreg.operandsConform hst)
  rw [result?_congr hstarted.operators (hreg.types.eq_of_extends hstarted.types) _ args _ _
    hopt] at hres
  rw [run_evaluate?_of_result (hst.earlier hstarted howd).constants? hopt hres] at hev
  exact run_some_ne_none hev

/-- A value is never taken apart, unless it depends on a write. -/
theorem Regular.not_projection
    (hv : n.isAddress = false)
    (hws : ∀ {other : NodeId} {m : Node}, d.graph.Reaches [id] other → d.graph.node? other = some m → m.isWrite = false)
    (hk : n.kind = .expression op args) : op.isProjection = false := by
  induction hix : id.index using Nat.strongRecOn generalizing id n op args with
  | ind index ih =>
    by_contra hproj
    obtain ⟨base, tgt, whole, slot, rfl, htg, htargetValue, hwh, htk⟩ :=
      hs.takesSlot hn hk (Bool.not_eq_false _ ▸ hproj)
    rw [hv] at htargetValue
    have hm : base ∈ n.operands := Node.mem_operands hk mem_cons_self
    have hrch : d.graph.Reaches [id] base := by
      refine (Graph.Reaches.root mem_cons_self).operand ?_
      rw [Graph.operands, hn]
      exact hm
    obtain ⟨before, hbf, -, rest, start, hsta, -, howd, -, hrep⟩ := hs.expression hn hk
    have hstarted := hsta.trans hbf
    have hstartTypes : d.types = start.types := hreg.types.eq_of_extends hstarted.types
    have hstartTarget := hstarted.node?_of_owns (howd base mem_cons_self) htg
    obtain ⟨onAddress, -, hproject⟩ := htk.run_replace?
    rw [hproject hstartTarget (hstartTypes ▸ hwh)] at hrep
    have hagg := isAggregate_of_slotType? htk.slotType?
    cases htargetKind : tgt.kind with
    | constant v =>
      obtain ⟨item, _, hit, -⟩ := hreg.types.conforms_element
        (hreg.constants htg htargetKind) hwh htk.slotType?
      rw [run_project_constant hstartTarget htargetKind hit] at hrep
      exact run_some_ne_none hrep
    | argument name dir =>
      rw [(hs.argument htg htargetKind).1] at htargetValue
      cases htargetValue
    | read addr => exact run_project_read_ne_none hstartTarget htargetKind hrep
    | write addr v =>
      have hw := hws hrch htg
      rw [Node.isWrite, htargetKind] at hw
      cases hw
    | expression inner parts =>
      cases inner with
      | registered name pos =>
        obtain ⟨defn, kind, hg, hsh⟩ := hreg.scalar_of_registered hs htg htargetKind
        cases hwh.symm.trans hg
        rw [TypeDefinition.isAggregate, hsh] at hagg
        cases hagg
      | construct =>
        have hlen := hreg.length_of_construct hs htg htargetKind hwh hagg
        have hlt := lt_arity_of_slotType? htk.slotType? hlen
        rw [run_project_construct hstartTarget htargetKind, getElem?_eq_getElem hlt] at hrep
        cases hrep
      | member | index =>
        have hinner := ih base.index (hix ▸ Graph.operand_index_lt hn hm) htg
          htargetValue (fun hpath ↦ hws (hrch.trans hpath)) htargetKind rfl
        cases hinner

end

end Irreducible

end Draft

end DiffGraph
