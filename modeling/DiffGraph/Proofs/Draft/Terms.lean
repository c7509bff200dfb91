import DiffGraph.Proofs.Draft.Outcomes
import DiffGraph.Proofs.Graph.Closure
import DiffGraph.Proofs.Operator.Interpretation
import DiffGraph.Proofs.Operator.Standard

/-!
Terms of a floating-point type and what stands for an application to them: a constant, one of the
terms, a term below them, or the application itself. `Simplifies` lists the ways. In every model that
obeys the laws of arithmetic and is exact on the constants that were computed, what stands for an
application denotes it (`Simplifies.denote`).
-/

set_option autoImplicit false

namespace DiffGraph

open List Graph

variable {d newer : Draft} {t type : String} {names : List String} {test : Value → Bool}
  {part : NodeId}

namespace Draft

/-- The draft computes with numbers of the precision. -/
structure Supports (d : Draft) (prec : Precision) : Prop where
  operators : d.operators = .standard
  standard : prec = .double ∨ prec = .single
  scalar : ∃ defn kind, d.types.get? prec.type = some defn ∧
    defn.shape = .scalar kind ∧ kind.isFloat = true

/-- A term of a type: constants, reads, and registered operators applied to terms of the type. -/
inductive Term (d : Draft) (t : String) : NodeId → Prop
  | constant {id : NodeId} {v : Value} (hst : d.StoresConstant id t v) :
      Term d t id
  | read {id addr : NodeId} {n : Node} (hn : d.graph.node? id = some n)
      (ht : n.type = t) (haddr : n.isAddress = false)
      (hk : n.kind = .read addr) : Term d t id
  | registered {id : NodeId} {n : Node} {name : String} {pos : Nat}
      {args : List NodeId} (hn : d.graph.node? id = some n)
      (ht : n.type = t) (haddr : n.isAddress = false)
      (hk : n.kind = .expression (.registered name pos) args)
      (hops : ∀ arg ∈ args, Term d t arg) : Term d t id

/-- A term in which only some operators occur. -/
inductive TermOver (d : Draft) (t : String) (allowed : String → Prop) : NodeId → Prop
  | constant {id : NodeId} {v : Value} (hst : d.StoresConstant id t v) :
      TermOver d t allowed id
  | read {id addr : NodeId} {n : Node} (hn : d.graph.node? id = some n)
      (ht : n.type = t) (haddr : n.isAddress = false)
      (hk : n.kind = .read addr) : TermOver d t allowed id
  | registered {id : NodeId} {n : Node} {name : String} {pos : Nat}
      {args : List NodeId} (hn : d.graph.node? id = some n)
      (ht : n.type = t) (haddr : n.isAddress = false)
      (hk : n.kind = .expression (.registered name pos) args) (hnm : allowed name)
      (hops : ∀ arg ∈ args, TermOver d t allowed arg) :
      TermOver d t allowed id

/-- The node is a constant that passes the test. -/
def Stores (d : Draft) (test : Value → Bool) (id : NodeId) : Prop :=
  ∃ n, d.graph.node? id = some n ∧ n.constant?.any test = true

section Terms

variable {precision : Precision} {id : NodeId}

theorem supports_double (hopr : d.operators = .standard)
    (hts : d.types = .scalars) : d.Supports .double := by
  refine ⟨hopr, .inl rfl, ?_⟩
  rw [hts]
  exact ⟨_, .double, rfl, rfl, rfl⟩

theorem Supports.later (h : d.Precedes newer) (hsup : d.Supports precision) :
    newer.Supports precision := by
  obtain ⟨defn, kind, hg, hsh, hk⟩ := hsup.scalar
  obtain ⟨wider, hwd, hwn⟩ := h.types.get? hg
  exact ⟨h.operators.trans hsup.operators, hsup.standard, wider, kind, hwd,
    hwn.scalar_shape.mpr hsh, hk⟩

theorem Supports.earlier (h : d.Precedes newer) (hsup : newer.Supports precision) :
    d.Supports precision := by
  obtain ⟨wider, kind, hwd, hsh, hk⟩ := hsup.scalar
  obtain ⟨definition, hg⟩ : ∃ definition, d.types.get? precision.type = some definition := by
    rw [← Option.isSome_iff_exists, ← h.types.isSome_get?, hwd, Option.isSome_some]
  obtain ⟨m, hf, hwn⟩ := h.types.get? hg
  cases hwd.symm.trans hf
  exact ⟨h.operators.symm.trans hsup.operators, hsup.standard, definition, kind, hg,
    hwn.scalar_shape.mp hsh, hk⟩

theorem Term.later (h : d.Precedes newer) (htm : d.Term t id) : newer.Term t id := by
  induction htm with
  | constant hst => exact .constant (hst.later h)
  | read hn ht haddr hk => exact .read (h.graph.node? hn) ht haddr hk
  | registered hn ht haddr hk _ ih =>
    exact .registered (h.graph.node? hn) ht haddr hk ih

theorem Term.holdsValue (htm : d.Term type id) : d.HoldsValue id type := by
  cases htm with
  | constant hst => exact hst.holdsValue
  | read hn ht haddr | registered hn ht haddr => exact ⟨_, hn, ht, haddr⟩

theorem holdsValues {ids : List NodeId} (hvs : ∀ id ∈ ids, d.HoldsValue id t) :
    Forall₂ d.HoldsValue ids (ids.map fun _ ↦ t) := by
  induction ids with
  | nil => exact .nil
  | cons id ids ih =>
    obtain ⟨hfst, hos⟩ := forall_mem_cons.mp hvs
    exact .cons hfst (ih hos)

section Allowed

variable {allowed : String → Prop}

theorem TermOver.term (h : d.TermOver t allowed id) : d.Term t id := by
  induction h with
  | constant hst => exact .constant hst
  | read hn ht haddr hk => exact .read hn ht haddr hk
  | registered hn ht haddr hk _ _ ih =>
    exact .registered hn ht haddr hk ih

theorem TermOver.later (h : d.Precedes newer) (htm : d.TermOver t allowed id) :
    newer.TermOver t allowed id := by
  induction htm with
  | constant hst => exact .constant (hst.later h)
  | read hn ht haddr hk => exact .read (h.graph.node? hn) ht haddr hk
  | registered hn ht haddr hk hnm _ ih =>
    exact .registered (h.graph.node? hn) ht haddr hk hnm ih

theorem TermOver.mono {permitted : String → Prop} (htm : d.TermOver t allowed id)
    (himp : ∀ name, allowed name → permitted name) : d.TermOver t permitted id := by
  induction htm with
  | constant hst => exact .constant hst
  | read hn ht haddr hk => exact .read hn ht haddr hk
  | registered hn ht haddr hk hnm _ ih =>
    exact .registered hn ht haddr hk (himp _ hnm) ih

/-- A node that was there before was the same term. -/
theorem TermOver.earlier (h : d.Precedes newer) (htm : newer.TermOver t allowed id)
    (how : d.graph.Owns id) : d.TermOver t allowed id := by
  obtain ⟨n, hn⟩ := owns_iff_node?.mp how
  induction htm generalizing n with
  | constant hst =>
    obtain ⟨m, hf, ht, hk, haddr⟩ := hst
    obtain rfl := Option.some.inj ((h.graph.node? hn).symm.trans hf)
    exact .constant ⟨n, hn, ht, hk, haddr⟩
  | read hf ht haddr hk =>
    obtain rfl := Option.some.inj ((h.graph.node? hn).symm.trans hf)
    exact .read hn ht haddr hk
  | registered hf ht haddr hk hnm _ ih =>
    obtain rfl := Option.some.inj ((h.graph.node? hn).symm.trans hf)
    refine .registered hn ht haddr hk hnm fun arg hop ↦ ?_
    have howd := owns_operand hn (Node.mem_operands hk hop)
    obtain ⟨src, hsrc⟩ := owns_iff_node?.mp howd
    exact ih arg hop howd src hsrc

/-- The parts of a term are terms. -/
theorem TermOver.of_mem_closure (htm : d.TermOver t allowed id)
    (hp : part ∈ d.graph.closure Node.isComputed id) : d.TermOver t allowed part := by
  refine closure_induction (motive := d.TermOver t allowed) htm.term.holdsValue.owns htm ?_ hp
  intro user arg n huser hn hcomp hop
  cases huser with
  | constant hst =>
    obtain ⟨m, hf, -, hk, -⟩ := hst
    cases hn.symm.trans hf
    rw [Node.isComputed, hk] at hcomp
    cases hcomp
  | read hf _ _ hk =>
    cases hn.symm.trans hf
    rw [Node.isComputed, hk] at hcomp
    cases hcomp
  | registered hf _ _ hk _ htms =>
    cases hn.symm.trans hf
    rw [Node.operands, hk] at hop
    exact htms arg hop

end Allowed

theorem Term.over_any (htm : d.Term t id) : d.TermOver t (fun _ ↦ True) id := by
  induction htm with
  | constant hst => exact .constant hst
  | read hn ht haddr hk => exact .read hn ht haddr hk
  | registered hn ht haddr hk _ ih =>
    exact .registered hn ht haddr hk trivial ih

theorem Term.of_mem_closure (htm : d.Term t id)
    (hp : part ∈ d.graph.closure Node.isComputed id) : d.Term t part :=
  (htm.over_any.of_mem_closure hp).term

theorem Sound.isAddress_of_registered (hs : d.Sound) {n : Node}
    (hn : d.graph.node? id = some n) {name : String} {pos : Nat} {args : List NodeId}
    (hk : n.kind = .expression (.registered name pos) args) :
    n.isAddress = false := by
  obtain ⟨before, -, hfi, -⟩ := hs.expression hn hk
  generalize n.isAddress = isAddress at hfi
  cases hfi
  rfl

theorem Stores.later (h : d.Precedes newer) (hst : d.Stores test id) : newer.Stores test id := by
  obtain ⟨n, hn, htest⟩ := hst
  exact ⟨n, h.graph.node? hn, htest⟩

theorem Stores.constant (h : d.Stores test id) :
    ∃ n v, d.graph.node? id = some n ∧ n.kind = .constant v ∧ test v = true := by
  obtain ⟨n, hn, htest⟩ := h
  obtain ⟨v, hv, htest⟩ := (Option.any_eq_true _ _).mp htest
  exact ⟨n, v, hn, Node.kind_of_constant? hv, htest⟩

end Terms

/-- What stands in the draft for an operator applied to operands of the type. -/
inductive Simplifies (d : Draft) (t : String) : String → List NodeId → NodeId → Prop
  | evaluated {name : String} {pos : Nat} {ov : Overload} {ids : List NodeId}
      {id : NodeId} {ts : List String} {values : List Value}
      {rule : List Value → Option Value} {res : Value} {defn : TypeDefinition}
      (hrv : d.operators.resolve name ts = some (pos, ov))
      (hnd : ov.result = .named t) (hru : ov.rules.evaluate = some rule)
      (hvs : d.StoreConstants ids ts values) (hres : rule values = some res)
      (hg : d.types.get? t = some defn)
      (hst : d.StoresConstant id t (defn.normalize res)) :
      Simplifies d t name ids id
  | formed {name : String} {pos : Nat} {ids : List NodeId} {id : NodeId} {n : Node}
      (hn : d.graph.node? id = some n) (ht : n.type = t)
      (haddr : n.isAddress = false)
      (hk : n.kind = .expression (.registered name pos) ids) :
      Simplifies d t name ids id
  | add_zero {a b : NodeId} (hz : d.Stores Value.isZero b) :
      Simplifies d t "+" [a, b] a
  | zero_add {a b : NodeId} (hz : d.Stores Value.isZero a) :
      Simplifies d t "+" [a, b] b
  | sub_zero {a b : NodeId} (hz : d.Stores Value.isZero b) :
      Simplifies d t "-" [a, b] a
  | zero_sub {a b id : NodeId} (hz : d.Stores Value.isZero a)
      (hneg : Simplifies d t "-" [b] id) : Simplifies d t "-" [a, b] id
  | sub_self {a id : NodeId} {v : Value} (hst : d.StoresConstant id t v)
      (hv : v.isZero = true) : Simplifies d t "-" [a, a] id
  | neg_neg {a inner : NodeId} {n : Node} {pos : Nat}
      (hn : d.graph.node? a = some n)
      (hk : n.kind = .expression (.registered "-" pos) [inner]) :
      Simplifies d t "-" [a] inner
  | mul_zero {a b id : NodeId} {v : Value} (hz : d.Stores Value.isZero b)
      (hst : d.StoresConstant id t v) (hv : v.isZero = true) :
      Simplifies d t "*" [a, b] id
  | zero_mul {a b id : NodeId} {v : Value} (hz : d.Stores Value.isZero a)
      (hst : d.StoresConstant id t v) (hv : v.isZero = true) :
      Simplifies d t "*" [a, b] id
  | mul_one {a b : NodeId} (hone : d.Stores Value.isOne b) : Simplifies d t "*" [a, b] a
  | one_mul {a b : NodeId} (hone : d.Stores Value.isOne a) : Simplifies d t "*" [a, b] b
  | div_one {a b : NodeId} (hone : d.Stores Value.isOne b) : Simplifies d t "/" [a, b] a
  | zero_div {a b : NodeId} (hz : d.Stores Value.isZero a) :
      Simplifies d t "/" [a, b] a

end Draft

/-- The model agrees with every computation of one of the named operators whose operands and result,
a constant of the type, are constants of the draft. -/
def Model.Exact {α : Type} (model : Model α) (d : Draft) (t : String) (names : List String) :
    Prop :=
  ∀ ⦃name : String⦄ ⦃pos : Nat⦄ ⦃ov : Overload⦄ ⦃ids : List NodeId⦄ ⦃id : NodeId⦄
    ⦃ts : List String⦄ ⦃values : List Value⦄ ⦃rule : List Value → Option Value⦄ ⦃res : Value⦄
    ⦃defn : TypeDefinition⦄, name ∈ names →
    d.operators.resolve name ts = some (pos, ov) →
    ov.result = .named t → ov.rules.evaluate = some rule →
    d.StoreConstants ids ts values → rule values = some res →
    d.types.get? t = some defn →
    d.StoresConstant id t (defn.normalize res) →
    model.constant (defn.normalize res) = model.operate name (values.map model.constant)

section Exactness

variable {α : Type} {model : Model α}

theorem Model.Exact.earlier {older : Draft} (h : model.Exact newer t names)
    (hl : older.Precedes newer) : model.Exact older t names := by
  intro name pos ov ids id ts values rule res defn hnm hrv hnd hru hvs hres hg hst
  obtain ⟨wider, hwd, hwn⟩ := hl.types.get? hg
  rw [← hwn.normalize] at hst ⊢
  exact h hnm (hl.operators ▸ hrv) hnd hru (hvs.later hl) hres hwd (hst.later hl)

/-- Nothing is computed in a draft without constants. -/
theorem Model.exact_of_isEmpty
    (hempty : ∀ {id : NodeId} {n : Node} {v : Value}, d.graph.node? id = some n → n.kind ≠ .constant v)
    (t : String) (names : List String) : model.Exact d t names := by
  intro name pos ov ids id ts values rule res defn _ _ _ _ _ _ _ hst
  obtain ⟨n, hn, -, hk, -⟩ := hst
  exact absurd hk (hempty hn)

theorem Model.Exact.fewer {others : List String} (h : model.Exact d t names)
    (hos : others ⊆ names) : model.Exact d t others :=
  fun _ _ _ _ _ _ _ _ _ _ hnm ↦ h (hos hnm)

end Exactness

/-- Constants do not vary, so their pairs are computed as exactly as they are. -/
theorem Interpretation.exact_dual {F : Type} [Field F] {I : Interpretation F}
    (h : I.model.Exact d t names) (path : AccessPath) :
    (I.dual path).Exact d t names := by
  intro name pos ov ids id ts values rule res defn hnm hrv hnd hru hvs hres hg hst
  have hfst : (values.map (I.dual path).constant).map Prod.fst = values.map I.constant := map_map
  have hsnd : (values.map (I.dual path).constant).map Prod.snd =
      (values.map I.constant).map fun _ ↦ 0 := by
    rw [map_map, map_map]
    rfl
  refine Prod.ext ?_ ?_
  · show I.constant _ = I.operate name _
    rw [hfst]
    exact h hnm hrv hnd hru hvs hres hg hst
  · show 0 = I.differential name _ _
    rw [hfst, hsnd, I.differential_zero]

namespace Draft

section Meaning

variable {name : String} {ids : List NodeId} {id : NodeId}

theorem Simplifies.later (h : d.Precedes newer) (hsimplifies : d.Simplifies t name ids id) :
    newer.Simplifies t name ids id := by
  induction hsimplifies with
  | evaluated hrv hnd hru hvs hres hg hst =>
    obtain ⟨wider, hwd, hwn⟩ := h.types.get? hg
    refine .evaluated (h.operators ▸ hrv) hnd hru (hvs.later h) hres hwd ?_
    rw [hwn.normalize]
    exact hst.later h
  | formed hn ht haddr hk => exact .formed (h.graph.node? hn) ht haddr hk
  | add_zero hz => exact .add_zero (hz.later h)
  | zero_add hz => exact .zero_add (hz.later h)
  | sub_zero hz => exact .sub_zero (hz.later h)
  | zero_sub hz _ ih => exact .zero_sub (hz.later h) ih
  | sub_self hst hv => exact .sub_self (hst.later h) hv
  | neg_neg hn hk => exact .neg_neg (h.graph.node? hn) hk
  | mul_zero hz hst hv => exact .mul_zero (hz.later h) (hst.later h) hv
  | zero_mul hz hst hv => exact .zero_mul (hz.later h) (hst.later h) hv
  | mul_one hone => exact .mul_one (hone.later h)
  | one_mul hone => exact .one_mul (hone.later h)
  | div_one hone => exact .div_one (hone.later h)
  | zero_div hz => exact .zero_div (hz.later h)

/-- What holds of the operands, of constants and of new applications holds of what stands for the
application. The operand of a negation may stand for the negation of it. -/
theorem Simplifies.inherits {holds : NodeId → Prop} (h : d.Simplifies t name ids id)
    (hc : ∀ {id v}, d.StoresConstant id t v → holds id)
    (hformed : ∀ {id n name pos ids}, d.graph.node? id = some n → n.type = t →
      n.isAddress = false → n.kind = .expression (.registered name pos) ids →
        (∀ arg ∈ ids, holds arg) → holds id)
    (hnegated : name = "-" → ∀ {id inner n pos}, d.graph.node? id = some n →
      n.kind = .expression (.registered "-" pos) [inner] → holds id → holds inner)
    (hids : ∀ arg ∈ ids, holds arg) : holds id := by
  induction h with
  | evaluated _ _ _ _ _ _ hst => exact hc hst
  | formed hn ht haddr hk => exact hformed hn ht haddr hk hids
  | add_zero | sub_zero | mul_one | div_one | zero_div => exact hids _ mem_cons_self
  | zero_add | one_mul => exact hids _ (mem_cons_of_mem _ mem_cons_self)
  | zero_sub _ _ ih =>
    exact ih hnegated fun arg hop ↦ hids arg (mem_cons_of_mem _ hop)
  | sub_self hst | mul_zero _ hst | zero_mul _ hst => exact hc hst
  | neg_neg hn hk => exact hnegated rfl hn hk (hids _ mem_cons_self)

/-- What stands for an application to terms is a term. -/
theorem Simplifies.term (h : d.Simplifies t name ids id)
    (htms : ∀ arg ∈ ids, d.Term t arg) : d.Term t id := by
  refine h.inherits .constant (fun hn ht haddr hk hids ↦
    .registered hn ht haddr hk hids) (fun _ _ _ _ _ hn hk htm ↦ ?_) htms
  cases htm with
  | constant hst =>
    obtain ⟨m, hf, -, hc, -⟩ := hst
    cases hn.symm.trans hf
    cases hk.symm.trans hc
  | read hf _ _ hrd =>
    cases hn.symm.trans hf
    cases hk.symm.trans hrd
  | registered hf _ _ hregistered hops =>
    cases hn.symm.trans hf
    cases hk.symm.trans hregistered
    exact hops _ mem_cons_self

variable {α : Type} {model : Model α}

section Obeying

variable {valuation : NodeId → α} (hob : d.graph.Obeys model valuation)

include hob

theorem Stores.value_one (h : d.Stores Value.isOne id) :
    ∃ stored, stored.isOne = true ∧ valuation id = model.constant stored := by
  obtain ⟨n, stored, hn, hk, hone⟩ := h.constant
  exact ⟨stored, hone, hob.constant hn hk⟩

theorem StoresConstant.value {stored : Value} (h : d.StoresConstant id t stored) :
    valuation id = model.constant stored := by
  obtain ⟨n, hn, -, hk, -⟩ := h
  exact hob.constant hn hk

theorem StoreConstants.value {ts : List String} {values : List Value}
    (h : d.StoreConstants ids ts values) : ids.map valuation = values.map model.constant := by
  induction h with
  | nil => rfl
  | cons hfst _ ih => rw [map_cons, map_cons, hfst.value hob, ih]

variable [Zero α]

theorem Stores.value_zero (hlaw : model.Lawful) (h : d.Stores Value.isZero id) :
    valuation id = 0 := by
  obtain ⟨n, stored, hn, hk, hz⟩ := h.constant
  rw [hob.constant hn hk]
  exact hlaw.constant_zero hz

/-- What stands for an application has its value. -/
theorem Simplifies.value (h : d.Simplifies t name ids id) (hlaw : model.Lawful)
    (hex : model.Exact d t names) (hnm : name ∈ names) :
    valuation id = model.operate name (ids.map valuation) := by
  induction h with
  | evaluated hrv hnd hru hvs hres hg hst =>
    rw [hst.value hob, hvs.value hob]
    exact hex hnm hrv hnd hru hvs hres hg hst
  | formed hn _ _ hk => exact hob.registered hn hk
  | add_zero hz => exact (hz.value_zero hob hlaw ▸ hlaw.add_zero _).symm
  | zero_add hz => exact (hz.value_zero hob hlaw ▸ hlaw.zero_add _).symm
  | sub_zero hz => exact (hz.value_zero hob hlaw ▸ hlaw.sub_zero _).symm
  | zero_sub hz _ ih =>
    rw [ih hnm]
    exact (hz.value_zero hob hlaw ▸ hlaw.zero_sub _).symm
  | sub_self hst hv =>
    rw [hst.value hob, hlaw.constant_zero hv]
    exact (hlaw.sub_self _).symm
  | neg_neg hn hk =>
    rw [map_cons, hob.registered hn hk]
    exact (hlaw.neg_neg _).symm
  | mul_zero hz hst hv =>
    rw [hst.value hob, hlaw.constant_zero hv, map_cons, map_cons, hz.value_zero hob hlaw]
    exact (hlaw.mul_zero _).symm
  | zero_mul hz hst hv =>
    rw [hst.value hob, hlaw.constant_zero hv, map_cons, hz.value_zero hob hlaw]
    exact (hlaw.zero_mul _).symm
  | mul_one hone =>
    obtain ⟨stored, hv, hfactor⟩ := hone.value_one hob
    exact (hfactor ▸ hlaw.mul_one hv _).symm
  | one_mul hone =>
    obtain ⟨stored, hv, hfactor⟩ := hone.value_one hob
    exact (hfactor ▸ hlaw.one_mul hv _).symm
  | div_one hone =>
    obtain ⟨stored, hv, hdivisor⟩ := hone.value_one hob
    exact (hdivisor ▸ hlaw.div_one hv _).symm
  | zero_div hz =>
    rw [map_cons, hz.value_zero hob hlaw]
    exact (hlaw.zero_div _).symm

end Obeying

variable [Zero α]

theorem StoresConstant.denote {value : Value} (h : d.StoresConstant id t value) :
    d.graph.denote model id = model.constant value :=
  h.value (obeys_denote _ _)

/-- What stands for an application denotes it. -/
theorem Simplifies.denote (h : d.Simplifies t name ids id) (hlaw : model.Lawful)
    (hex : model.Exact d t names) (hnm : name ∈ names) :
    d.graph.denote model id = model.operate name (ids.map (d.graph.denote model)) :=
  h.value (obeys_denote _ _) hlaw hex hnm

end Meaning

end Draft

end DiffGraph
