import DiffGraph.Proofs.Draft.Building

/-!
What requests come to when their operands are values that are already there. Nothing has to be read
and no number needs a type, so a request leads straight to the search for a constant, then to the
search for a replacement, and then to a node.
-/

set_option autoImplicit false

namespace DiffGraph

open List Stateful Draft Graph

variable {t op : String} {d draft : Draft} {n tgt : Node} {ts : List String} {pos slot : Nat}
  {ids : List NodeId} {base addr id v : NodeId} {ov : Overload}

/-- The overload that an application takes is known by its position. -/
theorem Registry.overload?_of_resolve {registry : Registry} {name : String}
    (h : registry.resolve name ts = some (pos, ov)) :
    registry.overload? name pos = some ov ∧ ov.accepts ts = true := by
  unfold resolve at h
  obtain ⟨m, hf, hen⟩ := Option.bind_eq_some_iff.mp h
  obtain ⟨e, hg, heq⟩ := Option.map_eq_some_iff.mp hen
  obtain ⟨rfl, rfl⟩ := Prod.mk.inj heq
  refine ⟨hg, ?_⟩
  obtain ⟨hlt, hacc, -⟩ := findIdx?_eq_some_iff_getElem.mp hf
  rw [getElem?_eq_getElem hlt] at hg
  exact Option.some.inj hg ▸ hacc

namespace Plan

variable {α β : Type} (perform : Request → Build NodeId)

/-- A plan in two parts is carried out one part after the other. -/
theorem run_bind (plan : Plan α) (next : α → Plan β) :
    (plan >>= next).run perform = plan.run perform >>= fun a ↦ (next a).run perform := by
  induction plan with
  | done | fail => rfl
  | build q rest ih =>
    show (do let answer ← _; ((rest answer) >>= next).run perform) = _
    simp only [ih, run, bind_assoc]
  | inspect id rest ih =>
    show (do let n ← _; ((rest n) >>= next).run perform) = _
    simp only [ih, run, bind_assoc]
  | isZero _ rest ih | isOne _ rest ih =>
    show (do let answer ← _; ((rest answer) >>= next).run perform) = _
    simp only [ih, run, bind_assoc]

/-- A plan for one request does what the request does. -/
theorem run_request (w : Request) (draft : Draft) :
    ((Plan.request w).run perform).run draft = (perform w).run draft := by
  have hr : ((Plan.request w).run perform).run draft = _ :=
    Stateful.run_bind_of_ok (Build.run_observe (perform w) draft)
  rw [hr]
  rcases (perform w).run draft with ⟨_ | _, _⟩ <;> rfl

end Plan

theorem Build.run_isZero (hn : d.graph.node? id = some n) :
    (Build.isZero id).run d = (.ok (d.isNeutral .zero id), d) := by
  rw [Build.isZero, run_query, Draft.isZero, Draft.node, hn]
  rfl

theorem Build.run_isOne (hn : d.graph.node? id = some n) :
    (Build.isOne id).run d = (.ok (d.isNeutral .one id), d) := by
  rw [Build.isOne, run_query, Draft.isOne, Draft.node, hn]
  rfl

namespace Draft

/-- What an operator's own test learns of an operand. -/
def operandView (d : Draft) (arg : NodeId) : OperandView where
  id := arg
  constant := fun _ ↦ .ok ((d.graph.node? arg).bind Node.constant?)
  isZero := fun _ ↦ .ok (d.isNeutral .zero arg)
  isOne := fun _ ↦ .ok (d.isNeutral .one arg)

theorem isNeutral_of_node? (element : Neutral) (hn : d.graph.node? id = some n) :
    d.isNeutral element id = match n.kind with
      | .constant v => element.isValue v
      | .expression (.registered name pos) args =>
        ((d.operators.overload? name pos).bind fun o ↦ element.test o.rules).any
          fun cond ↦ cond.holds (args.map d.operandView)
      | _ => false := by
  have hviews : n.operands.attach.map (fun arg ↦ d.operandView arg.1) =
      n.kind.operands.map d.operandView := attach_map_val
  rw [isNeutral]
  split
  next hno => cases hno.symm.trans hn
  next found hf =>
    obtain rfl := Option.some.inj (hf.symm.trans hn)
    cases hk : found.kind with
    | expression op args =>
      rw [hk] at hviews
      cases op with
      | registered name pos =>
        dsimp only
        cases (d.operators.overload? name pos).bind fun o ↦ element.test o.rules with
        | none => rfl
        | some cond => exact congrArg (fun views ↦ cond.holds views) hviews
      | _ => rfl
    | _ => rfl

end Draft

namespace Build

section Operands

theorem run_floatTypeAmong_nodes (howd : ∀ id ∈ ids, d.graph.Owns id) :
    ∃ m, (floatTypeAmong (ids.map .node)).run d = (.ok m, d) := by
  induction ids with
  | nil => exact ⟨none, rfl⟩
  | cons id ids ih =>
    obtain ⟨how, hos⟩ := forall_mem_cons.mp howd
    obtain ⟨n, hn⟩ := owns_iff_node?.mp how
    obtain ⟨m, hf⟩ := ih hos
    rw [map_cons, floatTypeAmong, run_bind_of_ok (run_checkOwned_of_owns how),
      run_bind_of_ok (run_typeOf_of_some hn), run_get_bind,
      run_bind_of_ok hf]
    exact ⟨_, rfl⟩

/-- Operands that are nodes stay what they are. -/
theorem run_coerce_nodes (howd : ∀ id ∈ ids, d.graph.Owns id) :
    (coerce (ids.map .node)).run d = (.ok ids, d) := by
  obtain ⟨m, hf⟩ := run_floatTypeAmong_nodes howd
  rw [coerce, run_bind_of_ok hf]
  clear howd hf
  induction ids with
  | nil => rfl
  | cons id ids ih =>
    rw [map_cons, mapM_cons, run_bind_of_ok (run_pure id d), run_bind_of_ok ih]
    rfl

theorem run_mapM_typeOf (hts : Forall₂ d.HasType ids ts) :
    (ids.mapM typeOf).run d = (.ok ts, d) := by
  induction hts with
  | nil => rfl
  | cons hhd _ ih =>
    obtain ⟨n, hn, rfl⟩ := hhd
    rw [mapM_cons, run_bind_of_ok (run_typeOf_of_some hn), run_bind_of_ok ih]
    rfl

theorem run_valueOf (hv : d.HoldsValue id t) : (valueOf id).run d = (.ok id, d) := by
  obtain ⟨n, hn, -, haddr⟩ := hv
  rw [valueOf, run_bind_of_ok (run_node_of_some hn), haddr]
  rfl

theorem run_mapM_valueOf (hvs : Forall₂ d.HoldsValue ids ts) :
    (ids.mapM valueOf).run d = (.ok ids, d) := by
  induction hvs with
  | nil => rfl
  | cons hhd _ ih =>
    rw [mapM_cons, run_bind_of_ok (run_valueOf hhd), run_bind_of_ok ih]
    rfl

theorem run_forM_checkOwned (howd : ∀ id ∈ ids, d.graph.Owns id) :
    (ids.forM checkOwned).run d = (.ok ⟨⟩, d) := by
  induction ids with
  | nil => rfl
  | cons id ids ih =>
    obtain ⟨how, hos⟩ := forall_mem_cons.mp howd
    change (checkOwned id >>= fun _ ↦ ids.forM checkOwned).run d = _
    rw [run_bind_of_ok (run_checkOwned_of_owns how)]
    exact ih hos

theorem run_resultType {res : ResultType} (hres : d.HasResult ts t res) :
    (resultType op ts res).run d = (.ok t, d) := by
  cases res with
  | named name =>
    obtain ⟨rfl, hsome⟩ := hres
    obtain ⟨defn, hdef⟩ := Option.isSome_iff_exists.mp hsome
    rw [resultType, run_bind_of_ok (run_lookupType_of_some hdef), TypeTable.get?_name hdef]
    rfl
  | sameAs pos =>
    change ts[pos]? = some t at hres
    rw [resultType, hres]
    rfl

theorem owns_of_holdsValue (hvs : Forall₂ d.HoldsValue ids ts) : ∀ id ∈ ids, d.graph.Owns id := by
  induction hvs with
  | nil => exact forall_mem_nil _
  | cons hhd _ ih => exact forall_mem_cons.mpr ⟨hhd.owns, ih⟩

end Operands

section Requests

variable (rest : Nat)

/-- An operator goes to the overload that accepts the types of its operands. -/
theorem run_perform_operands {args : List Operand}
    {middle last : Draft} {values : List NodeId} (hproj : applyWith.projection? op = none)
    (hcoerce : (coerce args).run d = (.ok ids, middle)) (hts : Forall₂ middle.HasType ids ts)
    (hrv : middle.operators.resolve op ts = some (pos, ov)) (hres : middle.HasResult ts t ov.result)
    (hvs : (ids.mapM valueOf).run middle = (.ok values, last)) :
    (perform rest (.apply op args)).run d =
      (finish (replaceWithin rest) (.registered op pos) t values false).run
        last := by
  rw [perform_eq, performWith, applyWith, run_bind_of_ok hcoerce, hproj]
  dsimp only
  rw [run_bind_of_ok (run_mapM_typeOf hts), run_get_bind, hrv]
  dsimp only
  rw [run_bind_of_ok (run_resultType hres), run_bind_of_ok hvs]

theorem run_perform_apply (hproj : applyWith.projection? op = none)
    (hvs : Forall₂ draft.HoldsValue ids ts) (hrv : draft.operators.resolve op ts = some (pos, ov))
    (hres : draft.HasResult ts t ov.result) :
    (perform rest (.apply op (ids.map .node))).run draft =
      (finish (replaceWithin rest) (.registered op pos) t ids false).run
        draft :=
  run_perform_operands rest hproj (run_coerce_nodes (owns_of_holdsValue hvs))
    (hvs.imp fun _ _ ⟨n, hn, ht, _⟩ ↦ ⟨n, hn, ht⟩) hrv hres
    (run_mapM_valueOf hvs)

theorem run_perform_construct {defn : TypeDefinition} (hvs : Forall₂ draft.HoldsValue ids ts)
    (hdef : draft.types.get? t = some defn) (harity : ids.length = defn.arity?.getD ids.length) :
    (perform rest (.construct t ids)).run draft =
      (finish (replaceWithin rest) .construct t ids false).run draft := by
  rw [perform_eq, performWith, constructWith,
    run_bind_of_ok (run_forM_checkOwned (owns_of_holdsValue hvs)),
    run_bind_of_ok (run_lookupType_of_some hdef)]
  dsimp only
  rw [if_neg (fun hne ↦ hne harity), run_bind_of_ok (run_mapM_valueOf hvs)]

/-- A member that is there is selected without a change to the types. -/
theorem run_perform_member {field : String} (hn : draft.graph.node? base = some n)
    (hm : draft.types.member n.type field = .ok ((slot, t), draft.types)) :
    (perform rest (.member base field)).run draft =
      (finish (replaceWithin rest) (.member field) t [base] n.isAddress).run draft := by
  have how := owns_of_node? hn
  rw [perform_eq, performWith, memberWith, run_bind_of_ok (run_checkOwned_of_owns how),
    run_bind_of_ok (run_node_of_some hn), run_get_bind, hm]
  dsimp only
  rw [run_bind_of_ok (run_modify _ draft)]

theorem run_perform_index (hn : draft.graph.node? base = some n)
    (hel : draft.types.element n.type pos = .ok t) :
    (perform rest (.index base pos)).run draft =
      (finish (replaceWithin rest) (.index pos) t [base] n.isAddress).run
        draft := by
  have how := owns_of_node? hn
  rw [perform_eq, performWith, indexWith, run_bind_of_ok (run_checkOwned_of_owns how),
    run_bind_of_ok (run_node_of_some hn), run_get_bind, hel]

/-- A write to an address that is not part of an input goes on with the value. -/
theorem run_write_of_writable {v : Operand}
    (htg : draft.graph.node? addr = some tgt) (haddr : tgt.isAddress = true)
    (hrt : ∀ name, ((draft.graph.root? addr).bind draft.graph.node?).bind Node.argument? ≠
      some (name, .input)) :
    (write addr v).run draft = (do
      let v ← writtenValue tgt.type v
      let t ← typeOf v
      if t ≠ tgt.type then
        throw (.writeTypeMismatch tgt.type t (← describe addr))
      let id ← intern tgt.type (.write addr v) false
      recordWrite id
      return id : Build NodeId).run draft := by
  rw [write, run_bind_of_ok (run_checkOwned_of_owns (owns_of_node? htg)),
    run_bind_of_ok (run_node_of_some htg), haddr]
  dsimp only
  rw [if_neg (show ¬(!true) = true from Bool.false_ne_true), run_get_bind]
  split
  next name hinput => exact absurd hinput (hrt name)
  next => rfl

/-- A value of the address's type is written. -/
theorem run_write
    (htg : d.graph.node? addr = some tgt) (haddr : tgt.isAddress = true)
    (hrt : ∀ name, ((d.graph.root? addr).bind d.graph.node?).bind Node.argument? ≠
      some (name, .input)) (hv : d.HoldsValue v tgt.type)
    (owned : ∀ arg ∈ (NodeKind.write addr v).operands, d.graph.Owns arg) :
    (write addr (.node v)).run d = (.ok (d.graph.intern tgt.type (.write addr v) false owned).1,
        { d with
          graph := (d.graph.intern tgt.type (.write addr v) false owned).2
          writes :=
            if d.writes.contains (d.graph.intern tgt.type (.write addr v) false owned).1
            then d.writes
            else d.writes ++ [(d.graph.intern tgt.type (.write addr v) false owned).1] }) := by
  have hwritten : (writtenValue tgt.type (.node v)).run d = (.ok v, d) := by
    rw [writtenValue, run_bind_of_ok (run_checkOwned_of_owns hv.owns), run_valueOf hv]
  obtain ⟨src, hsrc, hsame, -⟩ := hv
  have ht : (typeOf v).run d = (.ok tgt.type, d) := hsame ▸ run_typeOf_of_some hsrc
  rw [run_write_of_writable htg haddr hrt, run_bind_of_ok hwritten, run_bind_of_ok ht,
    if_neg (fun hne ↦ hne rfl), run_bind_of_ok (run_intern owned), recordWrite,
    run_bind_of_ok (run_modify _ _), run_pure]
  split <;> rfl

end Requests

section Descent

theorem descend_append (v : NodeId) (path : List NodeId) (part : NodeId) :
    descend v (path ++ [part]) = (do descend (← descend v path) [part]) :=
  foldlM_append

/-- The last step of a descent applies the operator of the part. -/
theorem run_descend_part {part : NodeId} {op : Operator} {args : List NodeId}
    (hn : draft.graph.node? part = some n) (hk : n.kind = .expression op args) :
    (descend v [part]).run draft = (rebuild op n.type [v]).run draft := by
  rw [descend, foldlM_cons]
  simp only [foldlM_nil, bind_pure]
  rw [run_bind_of_ok (run_node_of_some hn), hk]
  dsimp only
  rw [run_bind_of_ok (run_typeOf_of_some hn)]

end Descent

section Evaluation

/-- A slot of a constant. -/
theorem run_project_constant {v item : Value} (hn : draft.graph.node? base = some n)
    (hk : n.kind = .constant v) (hit : v.element? slot = some item)
    (perform : Request → Build NodeId) (onAddress : NodeId → Request) :
    (project perform onAddress t base slot).run draft =
      (do return some (← constant t item) : Build (Option NodeId)).run draft := by
  rw [project, run_bind_of_ok (run_node_of_some hn), hk]
  dsimp only
  rw [hit]

end Evaluation

end Build

end DiffGraph
