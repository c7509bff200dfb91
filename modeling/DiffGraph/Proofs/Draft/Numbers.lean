import DiffGraph.Proofs.Draft.Places
import DiffGraph.Proofs.Draft.Simplification

/-!
Functions of numbers. A function reads, writes and spells out floating-point numbers only, and it
neither constructs nor converts a value (`Numerical`). Then everything its writes depend on is an
address, a term of one of the two precisions, or a write of such a term to an address of the same
type (`Sound.numeric`): standard operators take numbers of one precision and give one of the same,
and a number has no members.
-/

set_option autoImplicit false

namespace DiffGraph

open List Registry

namespace Draft

/-- What a function of numbers consists of. -/
inductive Numeric (d : Draft) : NodeId → Prop
  | place {id : NodeId} {t : String} {path : AccessPath} (hpl : d.Locates id t path) :
      Numeric d id
  | value {id : NodeId} {prec : Precision} (hsup : d.Supports prec)
      (htm : d.Term prec.type id) : Numeric d id
  | write {id addr value : NodeId} {n : Node} {prec : Precision} {path : AccessPath}
      (hn : d.graph.node? id = some n) (hk : n.kind = .write addr value)
      (hsup : d.Supports prec) (haddr : d.Locates addr prec.type path)
      (hv : d.Term prec.type value) : Numeric d id

/-- The type is that of floating-point numbers of one precision. -/
def IsNumber (d : Draft) (t : String) : Prop :=
  ∃ prec, d.Supports prec ∧ t = prec.type

/-- The writes depend on floating-point numbers only. -/
structure Numerical (d : Draft) : Prop where
  reads : ∀ ⦃id addr : NodeId⦄ ⦃n tgt : Node⦄, d.graph.Reaches d.writes id →
    d.graph.node? id = some n → n.kind = .read addr →
      d.graph.node? addr = some tgt → d.IsNumber tgt.type
  writes : ∀ ⦃id addr v : NodeId⦄ ⦃n tgt : Node⦄,
    d.graph.Reaches d.writes id → d.graph.node? id = some n →
      n.kind = .write addr v → d.graph.node? addr = some tgt →
        d.IsNumber tgt.type
  constants : ∀ ⦃id : NodeId⦄ ⦃n : Node⦄ ⦃v : Value⦄, d.graph.Reaches d.writes id →
    d.graph.node? id = some n → n.kind = .constant v → d.IsNumber n.type
  constructs : ∀ ⦃id : NodeId⦄ ⦃n : Node⦄ ⦃operands : List NodeId⦄,
    d.graph.Reaches d.writes id → d.graph.node? id = some n →
      n.kind ≠ .expression .construct operands
  operands : ∀ ⦃id arg : NodeId⦄ ⦃src : Node⦄, d.graph.Reaches d.writes id →
    arg ∈ d.graph.operands id → d.graph.node? arg = some src →
      src.isWrite = false

section Numbers

variable {d newer : Draft} {id : NodeId} {n node : Node}

theorem Term.isWrite_eq_false {t : String} (h : d.Term t id)
    (hn : d.graph.node? id = some n) : n.isWrite = false := by
  have hk {m : Node} (hf : d.graph.node? id = some m) :
      n.kind = m.kind := by rw [Option.some.inj (hn.symm.trans hf)]
  unfold Node.isWrite
  cases h with
  | constant hst =>
    obtain ⟨m, hf, -, hc, -⟩ := hst
    rw [hk hf, hc]
  | read hf _ _ hrd => rw [hk hf, hrd]
  | registered hf _ _ hregistered => rw [hk hf, hregistered]

theorem Numeric.later (h : d.Numeric id) (hl : d.Precedes newer) : newer.Numeric id := by
  cases h with
  | place hpl => exact .place (hpl.later hl)
  | value hsup htm => exact .value (hsup.later hl) (htm.later hl)
  | write hn hk hsup haddr hv =>
    exact .write (hl.graph.node? hn) hk (hsup.later hl) (haddr.later hl) (hv.later hl)

theorem Numeric.node? (h : d.Numeric id) : ∃ node, d.graph.node? id = some node := by
  cases h with
  | place hpl =>
    obtain ⟨node, hn, -⟩ := hpl.node?
    exact ⟨node, hn⟩
  | value _ htm =>
    obtain ⟨node, hn, -⟩ := htm.holdsValue
    exact ⟨node, hn⟩
  | write hn => exact ⟨_, hn⟩

theorem Numeric.operands_eq (h : d.Numeric id) (hl : d.Precedes newer) :
    newer.graph.operands id = d.graph.operands id := by
  obtain ⟨n, hn⟩ := h.node?
  rw [Graph.operands_of_node? hn, Graph.operands_of_node? (hl.graph.node? hn)]

theorem Supports.slotType? {prec : Precision} (h : d.Supports prec)
    (op : Operator) : d.types.slotType? prec.type op = none := by
  obtain ⟨defn, kind, hg, hsh, -⟩ := h.scalar
  exact TypeTable.slotType?_scalar hg hsh op

/-- The operands of what a function of numbers consists of belong to it. -/
theorem Numeric.operand (h : d.Numeric id) (hs : d.Sound) {operand : NodeId}
    (hop : operand ∈ d.graph.operands id) : d.Numeric operand := by
  have hops {m : Node} (hf : d.graph.node? id = some m) {kind : NodeKind}
      (hk : m.kind = kind) : operand ∈ kind.operands := by
    rwa [Graph.operands_of_node? hf, Node.operands, hk] at hop
  cases h with
  | place hpl =>
    cases hpl with
    | argument hn _ hk => exact absurd (hops hn hk) not_mem_nil
    | part hba _ hn _ hk =>
      obtain rfl := mem_singleton.mp (hops hn hk)
      exact .place hba
  | value hsup htm =>
    cases htm with
    | constant hst =>
      obtain ⟨n, hn, -, hk, -⟩ := hst
      exact absurd (hops hn hk) not_mem_nil
    | read hn _ _ hk =>
      obtain rfl := mem_singleton.mp (hops hn hk)
      obtain ⟨-, tgt, htg, haddr, -⟩ := hs.read hn hk
      obtain ⟨path, hpl⟩ := hs.exists_place htg haddr
      exact .place hpl
    | registered hn _ _ hk htms =>
      exact .value hsup (htms operand (hops hn hk))
  | write hn hk hsup haddr hv =>
    rcases mem_cons.mp (hops hn hk) with rfl | hsnd
    · exact .place haddr
    · obtain rfl := mem_singleton.mp hsnd
      exact .value hsup hv

/-- A write in a function of numbers is a write of a number. -/
theorem Numeric.of_write (h : d.Numeric id) (hn : d.graph.node? id = some n)
    {addr value : NodeId} (hk : n.kind = .write addr value) :
    ∃ prec path, d.Supports prec ∧ d.Locates addr prec.type path ∧ d.Term prec.type value := by
  cases h with
  | place hpl =>
    cases hpl with
    | argument hf _ harg =>
      cases hn.symm.trans hf
      cases hk.symm.trans harg
    | part _ _ hf _ hp =>
      cases hn.symm.trans hf
      cases hk.symm.trans hp
  | value _ htm =>
    have hw := htm.isWrite_eq_false hn
    rw [Node.isWrite, hk] at hw
    cases hw
  | write hf hw hsup hpl htm =>
    cases hn.symm.trans hf
    cases hk.symm.trans hw
    exact ⟨_, _, hsup, hpl, htm⟩

/-- All that writes of numbers depend on. -/
theorem Sound.numeric_of_mem_order (hs : d.Sound)
    (hws : ∀ write ∈ d.writes, d.Numeric write) (h : id ∈ d.order) :
    d.Numeric id := by
  obtain ⟨root, hrt, hpath⟩ := (Dependencies.mem_inOrder_iff _ _).mp h
  induction hpath with
  | refl => exact hws root hrt
  | tail hprefix hop ih =>
    exact (ih ((Dependencies.mem_inOrder_iff _ _).mpr ⟨root, hrt, hprefix⟩)).operand hs hop

/-- A value that is not a write is a term. -/
theorem Numeric.term (h : d.Numeric id) (hn : d.graph.node? id = some n)
    (haddr : n.isAddress = false) (hw : n.isWrite = false) :
    ∃ prec, d.Supports prec ∧ d.Term prec.type id ∧ n.type = prec.type := by
  cases h with
  | place hpl =>
    obtain ⟨m, hf, -, hfoundAddress⟩ := hpl.node?
    cases hn.symm.trans hf
    cases haddr.symm.trans hfoundAddress
  | value hsup htm =>
    obtain ⟨m, hf, ht, -⟩ := htm.holdsValue
    cases hn.symm.trans hf
    exact ⟨_, hsup, htm, ht⟩
  | write hf hk =>
    cases hn.symm.trans hf
    rw [Node.isWrite, hk] at hw
    cases hw

/-- Operators on numbers of a precision give numbers of the same precision. -/
theorem Sound.term_of_registered (hs : d.Sound) (hopr : d.operators = .standard)
    (hn : d.graph.node? id = some n) {name : String} {pos : Nat}
    {args : List NodeId} (hk : n.kind = .expression (.registered name pos) args)
    (hops : ∀ arg ∈ args, ∃ prec, d.Supports prec ∧ d.Term prec.type arg) :
    ∃ prec, d.Supports prec ∧ d.Term prec.type id := by
  have haddr := hs.isAddress_of_registered hn hk
  obtain ⟨ov, ts, hrv, hres, hvs⟩ := hs.registered hn hk
  rw [hopr] at hrv
  have hacc : ov.accepts ts = true := (overload?_of_resolve hrv).2
  -- The type of an operand is the type that its position asks for.
  have htm {arg : NodeId} {t : String} (hop : arg ∈ args) (hholds : d.HoldsValue arg t) :
      ∃ prec, d.Supports prec ∧ d.Term prec.type arg ∧ t = prec.type := by
    obtain ⟨prec, hsup, htm⟩ := hops arg hop
    obtain ⟨m, hf, rfl, -⟩ := hholds
    obtain ⟨src, hsrc, hsame, -⟩ := htm.holdsValue
    cases hf.symm.trans hsrc
    exact ⟨prec, hsup, htm, hsame⟩
  have hint {prec : Precision} (hsup : d.Supports prec) : "int" ≠ prec.type := by
    rcases hsup.standard with rfl | rfl <;> decide
  unfold Overload.accepts at hacc
  cases standard_computes ov (mem_of_resolve hrv).1 with
  | unary _ hnd hpat =>
    rw [hpat] at hacc
    rw [hnd] at hres
    obtain rfl := ArgumentPattern.accepts_unary hacc
    obtain - | ⟨ha, hno⟩ := hvs
    cases hno
    obtain ⟨prec, hsup, ha, ht⟩ := htm mem_cons_self ha
    refine ⟨prec, hsup, .registered hn (hres.1.symm.trans ht) haddr hk ?_⟩
    exact forall_mem_singleton.mpr ha
  | binary _ hnd hpat =>
    rw [hpat] at hacc
    rw [hnd] at hres
    obtain rfl := ArgumentPattern.accepts_binary hacc
    obtain - | ⟨ha, - | ⟨hb, hno⟩⟩ := hvs
    cases hno
    obtain ⟨prec, hsup, ha, ht⟩ := htm mem_cons_self ha
    obtain ⟨other, -, hb, ho⟩ := htm (mem_cons_of_mem _ mem_cons_self) hb
    rw [← ho, ht] at hb
    refine ⟨prec, hsup, .registered hn (hres.1.symm.trans ht) haddr hk ?_⟩
    exact forall_mem_cons.mpr ⟨ha, forall_mem_singleton.mpr hb⟩
  | negation _ hpat =>
    rw [hpat] at hacc
    obtain rfl := ArgumentPattern.accepts_unary hacc
    obtain - | ⟨ha, -⟩ := hvs
    obtain ⟨prec, hsup, -, ht⟩ := htm mem_cons_self ha
    exact absurd ht (hint hsup)
  | integer _ hpat =>
    rw [hpat] at hacc
    obtain rfl := ArgumentPattern.accepts_binary hacc
    obtain - | ⟨ha, -⟩ := hvs
    obtain ⟨prec, hsup, -, ht⟩ := htm mem_cons_self ha
    exact absurd ht (hint hsup)

/-- All that the writes of a function of numbers depend on. -/
theorem Sound.numeric (hs : d.Sound) (hopr : d.operators = .standard) (hnum : d.Numerical)
    (hrch : d.graph.Reaches d.writes id) (hn : d.graph.node? id = some n) : d.Numeric id := by
  induction hix : id.index using Nat.strongRecOn generalizing id n with
  | ind index ih =>
    by_cases haddr : n.isAddress = true
    · obtain ⟨path, hpl⟩ := hs.exists_place hn haddr
      exact .place hpl
    rw [Bool.not_eq_true] at haddr
    -- Operands that are values are terms already.
    have htm {operand : NodeId} {src : Node} (hop : operand ∈ n.operands)
        (hsrc : d.graph.node? operand = some src) (hv : src.isAddress = false) :
        ∃ prec, d.Supports prec ∧ d.Term prec.type operand ∧ src.type = prec.type := by
      have hm : operand ∈ d.graph.operands id := by
        rw [Graph.operands, hn]
        exact hop
      have hnumeric := ih operand.index (hix ▸ Graph.operand_index_lt hn hop)
        (hrch.operand hm) hsrc rfl
      exact hnumeric.term hsrc hv (hnum.operands hrch hm hsrc)
    cases hk : n.kind with
    | constant v =>
      obtain ⟨prec, hsup, ht⟩ := hnum.constants hrch hn hk
      exact .value hsup (.constant ⟨n, hn, ht, hk, haddr⟩)
    | argument name dir =>
      cases haddr.symm.trans (hs.argument hn hk).1
    | read addr =>
      obtain ⟨-, tgt, htg, -, hsame⟩ := hs.read hn hk
      obtain ⟨prec, hsup, ht⟩ := hnum.reads hrch hn hk htg
      exact .value hsup (.read hn (hsame.symm.trans ht) haddr hk)
    | write addr v =>
      obtain ⟨tgt, src, -, -, -, -, htg, hta, hsrc, hv, hsame, -⟩ := hs.write_target hn hk
      obtain ⟨path, hpl⟩ := hs.exists_place htg hta
      have hm : v ∈ n.operands := Node.mem_operands hk (mem_cons_of_mem _ mem_cons_self)
      obtain ⟨prec, hsup, htm, ht⟩ := htm hm hsrc hv
      exact .write hn hk hsup (hsame.trans ht ▸ hpl) htm
    | expression op args =>
      have hops (operand : NodeId) (hop : operand ∈ args) :
          ∃ prec, d.Supports prec ∧ d.Term prec.type operand := by
        have hm : operand ∈ n.operands := by rwa [Node.operands, hk]
        have hcomp : n.isComputed = true := Node.isComputed_of_expression hk haddr
        obtain ⟨t, src, hsrc, -, hv⟩ := hs.value_operand hn hcomp hm
        obtain ⟨prec, hsup, htm, -⟩ := htm hm hsrc hv
        exact ⟨prec, hsup, htm⟩
      by_cases hproj : op.isProjection = true
      · obtain ⟨before, hbf, hfi, -⟩ := hs.expression hn hk
        obtain ⟨base, tgt, rfl, htg, -⟩ := hfi.of_projection hproj
        obtain ⟨prec, hsup, htm⟩ := hops base mem_cons_self
        obtain ⟨m, hf, ht, -⟩ := htm.holdsValue
        have hsl := hs.slotType? hn hk hproj hf
        rw [ht, hsup.slotType? op] at hsl
        cases hsl
      cases op with
      | member | index => exact absurd rfl hproj
      | construct => exact absurd hk (hnum.constructs hrch hn)
      | registered name pos =>
        obtain ⟨prec, hsup, htm⟩ := hs.term_of_registered hopr hn hk hops
        exact .value hsup htm

end Numbers

end Draft

end DiffGraph
