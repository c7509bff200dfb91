import DiffGraph.Operator.Standard.Registry
import DiffGraph.Proofs.Draft.Rendering
import DiffGraph.Proofs.Draft.Requests
import DiffGraph.Proofs.Types.Conformity

/-!
The value of a node by recursion. Arguments have the values that an environment binds to them, a
read has the value at its address, an operator is evaluated on the values of its operands, and every
value is spelled the way the node's type stores it.
-/

set_option autoImplicit false

namespace DiffGraph

open Stateful Option

/-- The value bound to a name. Of two bindings the later one counts. -/
def boundTo (env : List (String × Value)) (name : String) : Option Value :=
  env.reverse.lookup name

namespace Draft

/-- The constant that is stored for a value of a type. -/
def stored (d : Draft) (t : String) (v : Value) : Option Value :=
  (d.types.get? t).map fun defn ↦ defn.normalize v

/-- What an operator makes of the values of its operands. -/
def result? (d : Draft) (t : String) (args : List NodeId) (values : List Value) :
    Operator → Option Value
  | .registered name pos =>
    ((d.operators.overload? name pos).bind fun ov ↦ ov.rules.evaluate).bind
      fun rule ↦ rule values
  | .construct =>
    (d.types.get? t).bind fun defn ↦
      match defn.shape with
      | .scalar kind => values.getLast?.bind kind.convert?
      | .record .. | .template .. => some (.tuple values)
      | .abstract => none
  | .member field => do
    let base ← args.head?.bind d.graph.node?
    let (slot, _) ← (d.types.get? base.type).bind fun defn ↦ defn.field? field
    values.head?.bind (Value.element? slot)
  | .index pos => values.head?.bind (Value.element? pos)

/-- Construction finds the result of an operator whose operands are constants. -/
theorem run_evaluate?_of_result {draft : Draft} {op : Operator} {t : String}
    {ids : List NodeId} {values : List Value} {res : Value}
    (hvs : (ids.mapM fun id ↦ (draft.graph.node? id).bind Node.constant?) = some values)
    (hopt : op.isProjection = false) (hres : draft.result? t ids values op = some res) :
    (Build.evaluate? op t ids).run draft =
      (do return some (← Build.constant t res) : Build (Option NodeId)).run draft := by
  cases op with
  | registered name pos =>
    obtain ⟨rule, hru, happlied⟩ := bind_eq_some_iff.mp hres
    rw [Build.evaluate?, run_get_bind, hru]
    dsimp only
    rw [run_bind_of_ok (Build.run_constants? ids draft), hvs, bind_some, happlied]
  | construct =>
    obtain ⟨defn, hg, hv⟩ := bind_eq_some_iff.mp hres
    rw [Build.evaluate?, run_bind_of_ok (Build.run_constants? ids draft), hvs]
    dsimp only
    rw [run_bind_of_ok (Build.run_lookupType_of_some hg)]
    cases hsh : defn.shape with
    | scalar kind =>
      rw [hsh] at hv
      dsimp only at hv ⊢
      rw [hv]
    | record | template =>
      rw [hsh] at hv
      cases hv
      rfl
    | abstract =>
      rw [hsh] at hv
      cases hv
  | member | index => cases hopt

theorem result?_congr {older newer : Draft} (hopr : newer.operators = older.operators)
    (hts : newer.types = older.types) (t : String) (args others : List NodeId)
    (values : List Value) {operator : Operator} (hopt : operator.isProjection = false) :
    newer.result? t others values operator = older.result? t args values operator := by
  cases operator with
  | registered name pos => rw [result?, result?, hopr]
  | construct => rw [result?, result?, hts]
  | member | index => cases hopt

/-- The value of a node for given arguments. -/
def valueUnder (d : Draft) (env : List (String × Value)) (id : NodeId) :
    Option Value :=
  match h : d.graph.node? id with
  | none => none
  | some n =>
    match hk : n.kind with
    | .constant v => some v
    | .argument name _ => (boundTo env name).bind (d.stored n.type)
    | .read addr =>
      have : addr.index < id.index :=
        Graph.operand_index_lt h (Node.mem_operands hk List.mem_cons_self)
      d.valueUnder env addr
    | .write .. => none
    | .expression op args => do
      let values ← args.attach.mapM fun ⟨arg, member⟩ ↦
        have : arg.index < id.index :=
          Graph.operand_index_lt h (Node.mem_operands hk member)
        d.valueUnder env arg
      (d.result? n.type args values op).bind (d.stored n.type)
termination_by id.index

theorem valueUnder_of_node? {d : Draft} {id : NodeId} {node : Node}
    (env : List (String × Value)) (hn : d.graph.node? id = some node) :
    d.valueUnder env id =
      match node.kind with
      | .constant v => some v
      | .argument name _ => (boundTo env name).bind (d.stored node.type)
      | .read addr => d.valueUnder env addr
      | .write .. => none
      | .expression op args =>
        (args.mapM (d.valueUnder env)).bind fun values ↦
          (d.result? node.type args values op).bind (d.stored node.type) := by
  rw [valueUnder]
  split
  next hno =>
    rw [hn] at hno
    cases hno
  next found hf =>
    obtain rfl : found = node := some.inj (hf.symm.trans hn)
    split
    next hk => simp only [hk]
    next hk => simp only [hk]
    next hk => simp only [hk]
    next hk => simp only [hk]
    next hk =>
      simp only [hk]
      rw [mapM_attach]
      rfl

/-- What a draft has to be like so that every expression in it can be evaluated: its operators are
the standard ones, its types are built from scalars, its constants have the shapes of their types,
and its constructors take what their slots hold. -/
structure Regular (d : Draft) : Prop where
  operators : d.operators = .standard
  types : d.types.Concrete
  replacementLimit : 1 ≤ d.options.replacementLimit
  constants : ∀ {id : NodeId} {n : Node} {v : Value}, d.graph.node? id = some n →
    n.kind = .constant v → d.types.Conforms v n.type
  /-- A conversion takes a scalar. -/
  conversions : ∀ {id : NodeId} {n : Node} {args : List NodeId} {defn : TypeDefinition}
    {kind : Scalar}, d.graph.node? id = some n →
    n.kind = .expression .construct args → d.types.get? n.type = some defn →
    defn.shape = .scalar kind → ∀ arg ∈ args, ∃ src sourceDefinition sourceKind,
      d.graph.node? arg = some src ∧
      d.types.get? src.type = some sourceDefinition ∧
      sourceDefinition.shape = .scalar sourceKind
  /-- An aggregate is built from values of its slots' types. -/
  aggregates : ∀ {id : NodeId} {n : Node} {args : List NodeId} {defn : TypeDefinition},
    d.graph.node? id = some n → n.kind = .expression .construct args →
    d.types.get? n.type = some defn → defn.isAggregate = true →
    ∀ (pos : Nat) (arg : NodeId), args[pos]? = some arg → ∃ src,
      d.graph.node? arg = some src ∧
      defn.slotType? pos = some src.type

/-- The environment binds all arguments that the node reads from to values of their shapes. -/
def Supplies (d : Draft) (env : List (String × Value)) (id : NodeId) : Prop :=
  ∀ ⦃read addr root : NodeId⦄ ⦃n arg : Node⦄ ⦃name : String⦄ ⦃dir : Direction⦄,
    d.graph.Reaches [id] read → d.graph.node? read = some n →
    n.kind = .read addr → d.graph.root? addr = some root →
    d.graph.node? root = some arg → arg.kind = .argument name dir →
    ∃ v, boundTo env name = some v ∧ d.types.Conforms v arg.type

end Draft

end DiffGraph
