import DiffGraph.Proofs.Draft.Correspondence

/-!
Construction depends on terms only. A request that is made in two drafts with the same operators,
types and options, on operands that stand for the same terms, yields nodes that stand for the same
term, or fails in both for the same kind of reason, whatever else the drafts contain and in whatever
order it was built (`matches_request`).

Operators have this property as long as their rules of replacement have it (`Overload.Uniform`): a
rule must not look at positions of nodes, and whether it applies has to be settled before it builds
anything.
-/

set_option autoImplicit false

namespace DiffGraph

open List Stateful Build

variable {first second : Draft} {a b : NodeId} {ids ids' args args' : List NodeId}
  {operators : Registry} {q request' : Request}

namespace Draft

/-- Operands that are the same number or stand for the same term. -/
inductive SameOperand (first second : Draft) : Operand → Operand → Prop
  | node {a b : NodeId} (h : Same first second a b) : SameOperand first second (.node a) (.node b)
  | float (x : Binary64) : SameOperand first second (.float x) (.float x)
  | int (n : Int64) : SameOperand first second (.int n) (.int n)

/-- Requests for expressions that differ only in the names of corresponding operands. -/
inductive SameRequest (first second : Draft) : Request → Request → Prop
  | apply (op : String) {args args' : List Operand}
      (h : Forall₂ (SameOperand first second) args args') :
      SameRequest first second (.apply op args) (.apply op args')
  | member {a b : NodeId} (h : Same first second a b) (field : String) :
      SameRequest first second (.member a field) (.member b field)
  | index {a b : NodeId} (h : Same first second a b) (pos : Nat) :
      SameRequest first second (.index a pos) (.index b pos)
  | construct (t : String) {arguments arguments' : List NodeId}
      (h : Forall₂ (Same first second) arguments arguments') :
      SameRequest first second (.construct t arguments) (.construct t arguments')
  | read {a b : NodeId} (h : Same first second a b) :
      SameRequest first second (.read a) (.read b)
  | constant (t : String) (v : Value) :
      SameRequest first second (.constant t v) (.constant t v)
  | one (t : String) : SameRequest first second (.one t) (.one t)

/-- Results of searches that correspond. -/
inductive SameOption (first second : Draft) : Option NodeId → Option NodeId → Prop
  | none : SameOption first second none none
  | some {a b : NodeId} (h : Same first second a b) : SameOption first second (some a) (some b)

/-- Two ways of meeting requests that match on requests for expressions, where the operators are
the given ones. -/
def Performs (operators : Registry) (perform perform' : Request → Build NodeId) : Prop :=
  ∀ ⦃first second : Draft⦄ ⦃q request' : Request⦄, first.Alike second →
    first.operators = operators → SameRequest first second q request' →
      Matches first second (perform q) (perform' request') Same

end Draft

/-- A rule of replacement that depends on the terms of the operands only. It is carried out the same
way in drafts that are alike; and where it does not apply, it does not apply to operands that stand
for the same terms either, whatever the requests it could make would come to. -/
structure UniformRule (rule : List NodeId → Plan (Option NodeId)) : Prop where
  carried : ∀ {first second : Draft} {args args' : List NodeId}
    {perform perform' : Request → Build NodeId}, first.Alike second →
      Forall₂ (Draft.Same first second) args args' →
      Draft.Performs first.operators perform perform' →
      Draft.Matches first second ((rule args).run perform) ((rule args').run perform')
        Draft.SameOption
  refused : ∀ {first second d' : Draft} {args args' : List NodeId}
    {perform : Request → Build NodeId} (perform' : Request → Build NodeId),
      first.Kindred second → Forall₂ (Draft.Same first second) args args' →
      ((rule args).run perform).run first = (.ok none, d') →
        ((rule args').run perform').run second = (.ok none, second)

/-- The overload is replaced, if it is, by a rule that depends on terms only. -/
def Overload.Uniform (ov : Overload) : Prop :=
  ∀ ⦃rule : List NodeId → Plan (Option NodeId)⦄, ov.rules.replace = some rule →
    UniformRule rule

def Registry.Uniform (registry : Registry) : Prop :=
  ∀ ov ∈ registry.overloads, ov.Uniform

theorem Registry.Uniform.rule {registry : Registry} (h : registry.Uniform) {name : String}
    {pos : Nat} {rule : List NodeId → Plan (Option NodeId)}
    (hru : ((registry.overload? name pos).bind fun o ↦ o.rules.replace) = some rule) :
    UniformRule rule := by
  obtain ⟨ov, hov, hrep⟩ := Option.bind_eq_some_iff.mp hru
  have hm := (mem_filter.mp (mem_of_getElem? hov)).1
  exact h ov hm hrep

namespace Draft

/-- Nodes that can only be told apart by the names of corresponding operands. -/
structure SameNode (first second : Draft) (n m : Node) : Prop where
  type : n.type = m.type
  kind : SameKind first second n.kind m.kind
  isAddress : n.isAddress = m.isAddress

section Nodes

section

variable (hal : first.Alike second)

include hal

/-- Names of the same term stand for nodes that look the same. -/
theorem Alike.exists_nodes (h : Same first second a b) :
    ∃ n m, first.graph.node? a = some n ∧ second.graph.node? b = some m ∧
      SameNode first second n m := by
  obtain ⟨n, m, ha, hb, ht, hk⟩ := h.nodes
  exact ⟨n, m, ha, hb, ht, hk, h.isAddress_eq hal.left hal.right ha hb⟩

theorem matches_lookupType (name : String) :
    Matches first second (Build.lookupType name) (Build.lookupType name) Equal := by
  have hsame : second.lookupType name = first.lookupType name := by
    rw [Draft.lookupType, Draft.lookupType, hal.types]
  cases hf : first.lookupType name with
  | error error =>
    exact .error (by rw [Build.lookupType, run_query, hf])
      (by rw [Build.lookupType, run_query, hsame, hf]) (.refl _) (.refl _) hal (.refl _)
  | ok defn =>
    exact .ok (by rw [Build.lookupType, run_query, hf])
      (by rw [Build.lookupType, run_query, hsame, hf]) (.refl _) (.refl _) hal rfl

/-- Nodes of one kind, built in two drafts. -/
theorem corresponds_intern (t : String) {kind kind' : NodeKind}
    (isAddress : Bool) (hk : SameKind first second kind kind') :
    Corresponds first second (Build.intern t kind isAddress) (Build.intern t kind' isAddress)
      Same := by
  obtain ⟨owned, owned'⟩ := owns_of_same hk.operands
  refine .ok (run_intern owned) (run_intern owned') ?_
  obtain ⟨n, hn, ht, hnkind⟩ := @Graph.node?_intern _ t kind isAddress hal.left.interned owned
  obtain ⟨m, hm, ht', hmkind⟩ := @Graph.node?_intern _ t kind' isAddress hal.right.interned owned'
  refine SameKind.same ?_ (ht.trans ht'.symm) hn hm
  rw [hnkind, hmkind]
  exact hk.later { Precedes.refl first with graph := Graph.extends_intern owned }
    { Precedes.refl second with graph := Graph.extends_intern owned' }

theorem matches_constant (t : String) (v : Value) :
    Matches first second (Build.constant t v) (Build.constant t v) Same := by
  refine Corresponds.matches ?_ hal (constant_enlarges _ _ _).leads (constant_enlarges _ _ _).leads
  refine (matches_lookupType hal t).then fun _ _ hal' hdef ↦ ?_
  obtain rfl := hdef
  exact corresponds_intern hal' t false (.constant _)

theorem matches_one (t : String) : Matches first second (Build.one t) (Build.one t) Same := by
  refine (matches_lookupType hal t).bind fun _ _ hal' hdef ↦ ?_
  obtain rfl := hdef
  split
  · exact matches_constant hal' _ _
  · exact matches_constant hal' _ _
  · exact matches_constant hal' _ _
  · exact matches_throw hal' (.refl _)
  · exact matches_throw hal' (.refl _)

theorem matches_read (h : Same first second a b) :
    Matches first second (Build.read a) (Build.read b) Same := by
  refine Corresponds.matches ?_ hal (read_enlarges _ _).leads (read_enlarges _ _).leads
  obtain ⟨n, m, ha, hb, hns⟩ := hal.exists_nodes h
  refine .after_ok (.after_ok ?_ (run_node_of_some ha) (run_node_of_some hb))
    (run_checkOwned_of_owns h.left) (run_checkOwned_of_owns h.right)
  rw [hns.isAddress, hns.type]
  split
  · exact corresponds_intern hal _ false (.read h)
  · exact .error rfl rfl (by exact rfl)

theorem matches_valueOf (h : Same first second a b) :
    Matches first second (Build.valueOf a) (Build.valueOf b) Same := by
  obtain ⟨n, m, ha, hb, hns⟩ := hal.exists_nodes h
  refine .after_ok ?_ (run_node_of_some ha) (run_node_of_some hb)
  rw [hns.isAddress]
  split
  · exact matches_read hal h
  · exact matches_pure hal h

/-- Nodes that stand for the same terms have the same types. -/
theorem Alike.run_typesOf (h : Forall₂ (Same first second) ids ids') :
    ∃ ts, (ids.mapM Build.typeOf).run first = (.ok ts, first) ∧
      (ids'.mapM Build.typeOf).run second = (.ok ts, second) := by
  induction h with
  | nil => exact ⟨[], rfl, rfl⟩
  | cons hhd _ ih =>
    obtain ⟨ts, hx, hy⟩ := ih
    obtain ⟨n, m, ha, hb, hns⟩ := hal.exists_nodes hhd
    refine ⟨n.type :: ts, ?_, ?_⟩
    · rw [mapM_cons, run_bind_of_ok (run_typeOf_of_some ha), run_bind_of_ok hx]
      rfl
    · rw [mapM_cons, run_bind_of_ok (run_typeOf_of_some hb), run_bind_of_ok hy, hns.type]
      rfl

theorem matches_mapM_valueOf (h : Forall₂ (Same first second) ids ids') :
    Matches first second (ids.mapM Build.valueOf) (ids'.mapM Build.valueOf)
      fun d' after' ↦ Forall₂ (Same d' after') :=
  matches_mapM (S := Same) (R := Same) (fun hf hs h ↦ h.later hf hs) (fun hf hs h ↦ h.later hf hs)
    (fun hal h ↦ matches_valueOf hal h) hal h

theorem matches_constants? (h : Forall₂ (Same first second) args args') :
    Matches first second (Build.constants? args) (Build.constants? args') Equal :=
  .ok (run_constants? args first) (run_constants? args' second) (.refl first)
    (.refl second) hal (mapM_constant?_eq h)

end

end Nodes

section Operands

theorem SameOperand.later {first' second' : Draft} {arg operand' : Operand}
    (hfst : first.Precedes first') (hsnd : second.Precedes second')
    (h : SameOperand first second arg operand') :
    SameOperand first' second' arg operand' := by
  cases h with
  | node h => exact .node (h.later hfst hsnd)
  | float x => exact .float x
  | int n => exact .int n

theorem Alike.run_floatTypeAmong (hal : first.Alike second) {args args' : List Operand}
    (h : Forall₂ (SameOperand first second) args args') :
    ∃ found, (Build.floatTypeAmong args).run first = (.ok found, first) ∧
      (Build.floatTypeAmong args').run second = (.ok found, second) := by
  induction h with
  | nil => exact ⟨none, rfl, rfl⟩
  | cons hhd _ ih =>
    obtain ⟨found, hx, hy⟩ := ih
    cases hhd with
    | float | int => exact ⟨found, hx, hy⟩
    | node hsame =>
      obtain ⟨n, m, ha, hb, hns⟩ := hal.exists_nodes hsame
      have hleft := run_checkOwned_of_owns hsame.left
      have hright := run_checkOwned_of_owns hsame.right
      refine ⟨if (first.types.get? n.type).any TypeDefinition.isFloat then some n.type else found,
        ?_, ?_⟩
      · rw [Build.floatTypeAmong, run_bind_of_ok hleft, run_bind_of_ok (run_typeOf_of_some ha),
          run_get_bind, run_bind_of_ok hx]
        rfl
      · rw [Build.floatTypeAmong, run_bind_of_ok hright, run_bind_of_ok (run_typeOf_of_some hb),
          run_get_bind, run_bind_of_ok hy, hns.type, hal.types]
        rfl

theorem matches_coerce (hal : first.Alike second) {args args' : List Operand}
    (h : Forall₂ (SameOperand first second) args args') :
    Matches first second (Build.coerce args) (Build.coerce args')
      fun d' after' ↦ Forall₂ (Same d' after') := by
  obtain ⟨m, hx, hy⟩ := hal.run_floatTypeAmong h
  refine .after_ok ?_ hx hy
  refine matches_mapM (S := SameOperand) (R := Same) SameOperand.later
    (fun hf hs h ↦ h.later hf hs) (fun hal h ↦ ?_) hal h
  cases h with
  | node h => exact matches_pure hal h
  | float | int => exact matches_constant hal _ _

end Operands

section Finishing

variable {op : Operator} {t type : String}

/-- Passing on what a search found. -/
theorem Matches.some {x y : Build NodeId} (h : Matches first second x y Same) :
    Matches first second (do return Option.some (← x) : Build (Option NodeId))
      (do return Option.some (← y)) SameOption :=
  h.bind fun _ _ hal hsame ↦ matches_pure hal (.some hsame)

theorem matches_evaluate? (hal : first.Alike second) (h : Forall₂ (Same first second) args args') :
    Matches first second (Build.evaluate? op t args)
      (Build.evaluate? op t args') SameOption := by
  cases op with
  | registered name pos =>
    refine .after_ok ?_ (run_get first) (run_get second)
    rw [hal.operators]
    split
    · exact matches_pure hal .none
    · refine (matches_constants? hal h).bind fun _ _ hal hvs ↦ ?_
      obtain rfl := hvs
      split
      · exact matches_pure hal .none
      · exact (matches_constant hal _ _).some
  | construct =>
    refine (matches_constants? hal h).bind fun _ _ hal hvs ↦ ?_
    obtain rfl := hvs
    split
    · exact matches_pure hal .none
    · refine (matches_lookupType hal t).bind fun _ _ hal hdef ↦ ?_
      obtain rfl := hdef
      dsimp only
      split
      · exact matches_pure hal .none
      · exact (matches_constant hal _ _).some
  | member | index => exact matches_pure hal .none

variable {perform perform' : Request → Build NodeId}

theorem getElem?_same (h : Forall₂ (Same first second) args args') (pos : Nat) :
    SameOption first second args[pos]? args'[pos]? := by
  by_cases hlt : pos < args.length
  · have hlt' : pos < args'.length := h.length_eq ▸ hlt
    rw [getElem?_eq_getElem hlt, getElem?_eq_getElem hlt']
    exact .some (h.get hlt hlt')
  · have hlt' : ¬pos < args'.length := h.length_eq ▸ hlt
    rw [getElem?_eq_none (Nat.le_of_not_lt hlt), getElem?_eq_none (Nat.le_of_not_lt hlt')]
    exact .none

theorem matches_project (hperforms : Performs first.operators perform perform')
    {onAddress : NodeId → Request}
    (honAddress : ∀ {first second a b}, Same first second a b → SameRequest first second (onAddress a) (onAddress b))
    (hal : first.Alike second) (h : Same first second a b) (slot : Nat) :
    Matches first second (Build.project perform onAddress t a slot)
      (Build.project perform' onAddress t b slot) SameOption := by
  obtain ⟨n, m, ha, hb, -, hk, -⟩ := hal.exists_nodes h
  refine .after_ok ?_ (run_node_of_some ha) (run_node_of_some hb)
  generalize n.kind = kind at hk
  generalize m.kind = kind' at hk
  cases hk with
  | constant v =>
    dsimp only
    split
    · exact (matches_constant hal _ _).some
    · exact matches_pure hal .none
  | argument name dir => exact matches_pure hal .none
  | read haddr =>
    refine (hperforms hal rfl (honAddress haddr)).bind fun _ _ hal hp ↦ ?_
    exact (matches_read hal hp).some
  | write haddr hv => exact matches_pure hal .none
  | expression op hops =>
    cases op with
    | construct => exact matches_pure hal (getElem?_same hops slot)
    | registered | member | index => exact matches_pure hal .none

theorem matches_replace? (hperforms : Performs first.operators perform perform')
    (hal : first.Alike second)
    (hun : first.operators.Uniform) (h : Forall₂ (Same first second) args args') :
    Matches first second (Build.replace? perform op t args)
      (Build.replace? perform' op t args') SameOption := by
  cases op with
  | registered name pos =>
    refine .after_ok ?_ (run_get first) (run_get second)
    rw [hal.operators]
    split
    next rule hru => exact (hun.rule hru).carried hal h hperforms
    · exact matches_pure hal .none
  | construct => exact matches_pure hal .none
  | member field =>
    cases h with
    | nil => exact matches_pure hal .none
    | cons hba _ =>
      obtain ⟨n, m, ha, hb, hns⟩ := hal.exists_nodes hba
      refine .after_ok (.after_ok ?_ (run_typeOf_of_some ha) (run_typeOf_of_some hb))
        (run_get first) (run_get second)
      rw [hal.types, hns.type]
      split
      · exact matches_project hperforms (fun h ↦ .member h field) hal hba _
      · exact matches_pure hal .none
  | index pos =>
    cases h with
    | nil => exact matches_pure hal .none
    | cons hba _ => exact matches_project hperforms (fun h ↦ .index h pos) hal hba _

/-- Two ways of finishing an application that have the same outcome on corresponding operands. -/
def FinishesAlike (operators : Registry)
    (finish finish' : Operator → String → List NodeId → Bool → Build NodeId) : Prop :=
  ∀ ⦃first second : Draft⦄ ⦃op : Operator⦄ ⦃t : String⦄ ⦃args args' : List NodeId⦄
    (isAddress : Bool), first.Alike second → first.operators = operators →
      Forall₂ (Same first second) args args' →
      Corresponds first second (finish op t args isAddress)
        (finish' op t args' isAddress) Same

theorem finishesAlike_finish
    {replace replace' : Operator → String → List NodeId → Build (Option NodeId)}
    (hrep : ∀ {first second : Draft} {op : Operator} {t : String} {args args' : List NodeId}, first.Alike second → first.operators = operators → Forall₂ (Same first second) args args' → Matches first second (replace op t args) (replace' op t args') SameOption) :
    FinishesAlike operators (Build.finish replace) (Build.finish replace') := by
  intro first second op t args args' isAddress hal hopr h
  refine (matches_evaluate? hal h).then fun hf hs hal hevaluated ↦ ?_
  cases hevaluated with
  | some hsame => exact (matches_pure hal hsame).corresponds
  | none =>
    have h := h.imp fun _ _ h ↦ Same.later h hf hs
    refine (hrep hal (hf.operators.trans hopr) h).then fun hf hs hal hreplaced ↦ ?_
    cases hreplaced with
    | some hsame => exact (matches_pure hal hsame).corresponds
    | none =>
      have h := h.imp fun _ _ h ↦ Same.later h hf hs
      exact corresponds_intern hal t isAddress (.expression op h)

end Finishing

section Requests

variable {finish finish' : Operator → String → List NodeId → Bool → Build NodeId}

/-- A slot is looked for in the type of a node. -/
theorem Corresponds.after_node {α : Type} {f g : Node → Build α} {R : Draft → Draft → α → α → Prop}
    (hal : first.Alike second) (h : Same first second a b)
    (hnx : ∀ {n m}, SameNode first second n m → Corresponds first second (f n) (g m) R) :
    Corresponds first second (do Build.checkOwned a; f (← Build.node a))
      (do Build.checkOwned b; g (← Build.node b)) R := by
  obtain ⟨n, m, ha, hb, hns⟩ := hal.exists_nodes h
  exact .after_ok (.after_ok (hnx hns) (run_node_of_some ha) (run_node_of_some hb))
    (run_checkOwned_of_owns h.left) (run_checkOwned_of_owns h.right)

section

variable (hfin : FinishesAlike operators finish finish') (hal : first.Alike second)
  (hopr : first.operators = operators)

include hfin hal hopr

theorem corresponds_memberWith (h : Same first second a b) (field : String) :
    Corresponds first second (Build.memberWith finish a field) (Build.memberWith finish' b field)
      Same := by
  refine .after_node hal h fun hns ↦ .after_ok ?_ (run_get first) (run_get second)
  rw [hal.types, hns.type, hns.isAddress]
  split
  · exact .error rfl rfl (.refl _)
  next slot t newer hm =>
    -- No record is extended, so the types that are stored are those that were there.
    obtain rfl := TypeTable.Fixed.eq_of_member (.inl hal.fixed) hm
    have hsnd : ({ second with types := first.types } : Draft) = second := by
      rw [← hal.types]
    exact .after_ok (hfin _ hal hopr (.cons h .nil)) (run_modify _ first)
      ((run_modify _ second).trans (by rw [hsnd]))

theorem corresponds_indexWith (h : Same first second a b) (pos : Nat) :
    Corresponds first second (Build.indexWith finish a pos)
      (Build.indexWith finish' b pos) Same := by
  refine .after_node hal h fun hns ↦ .after_ok ?_ (run_get first) (run_get second)
  rw [hal.types, hns.type, hns.isAddress]
  split
  · exact .error rfl rfl (.refl _)
  · exact hfin _ hal hopr (.cons h .nil)

theorem corresponds_constructWith (t : String) {arguments arguments' : List NodeId}
    (h : Forall₂ (Same first second) arguments arguments') :
    Corresponds first second (Build.constructWith finish t arguments)
      (Build.constructWith finish' t arguments') Same := by
  obtain ⟨howd, howned'⟩ := owns_of_same h
  refine .after_ok ?_ (run_forM_checkOwned howd) (run_forM_checkOwned howned')
  refine (matches_lookupType hal t).then fun hf hs hal hdef ↦ ?_
  obtain rfl := hdef
  have h := h.imp fun _ _ h ↦ Same.later h hf hs
  dsimp only
  rw [h.length_eq]
  split
  · exact .error rfl rfl (.refl _)
  · refine (matches_mapM_valueOf hal h).then fun hf' _ hal hvs ↦ ?_
    exact hfin _ hal ((hf.trans hf').operators.trans hopr) hvs

end

theorem matches_single (hal : first.Alike second) (op : String)
    (h : Forall₂ (Same first second) ids ids') :
    Matches first second (Build.single op ids) (Build.single op ids') Same := by
  cases h with
  | nil => exact matches_throw hal (.refl _)
  | cons hhd htail =>
    cases htail with
    | nil => exact matches_pure hal hhd
    | cons _ _ => exact matches_throw hal rfl

theorem matches_resultType (hal : first.Alike second) (op : String) (ts : List String)
    (res : ResultType) :
    Matches first second (Build.resultType op ts res)
      (Build.resultType op ts res) Equal := by
  cases res with
  | named name =>
    refine (matches_lookupType hal name).bind fun _ _ hal hdef ↦ ?_
    obtain rfl := hdef
    exact matches_pure hal rfl
  | sameAs pos =>
    unfold Build.resultType
    dsimp only
    split
    · exact matches_pure hal rfl
    · exact matches_throw hal (.refl _)

section

variable (hfin : FinishesAlike operators finish finish') (hal : first.Alike second)
  (hopr : first.operators = operators)

include hfin hal hopr

theorem corresponds_applyWith
    (op : String) {args args' : List Operand} (h : Forall₂ (SameOperand first second) args args') :
    Corresponds first second (Build.applyWith finish op args)
      (Build.applyWith finish' op args') Same := by
  refine (matches_coerce hal h).then fun hf hs hal h ↦ ?_
  have hopr := hf.operators.trans hopr
  split
  · refine (matches_single hal _ h).then fun hf _ hal hba ↦ ?_
    exact corresponds_memberWith hfin hal (hf.operators.trans hopr) hba _
  · refine (matches_single hal _ h).then fun hf _ hal hba ↦ ?_
    exact corresponds_indexWith hfin hal (hf.operators.trans hopr) hba _
  obtain ⟨ts, hx, hy⟩ := hal.run_typesOf h
  refine .after_ok (.after_ok ?_ (run_get _) (run_get _)) hx hy
  rw [hal.operators]
  split
  · refine (matches_resultType hal _ _ _).then fun hf hs hal ht ↦ ?_
    obtain rfl := ht
    refine (matches_mapM_valueOf hal (h.imp fun _ _ h ↦ Same.later h hf hs)).then
      fun hf' _ hal hvs ↦ ?_
    exact hfin _ hal ((hf.trans hf').operators.trans hopr) hvs
  · refine .after_ok ?_ (run_get _) (run_get _)
    rw [hal.types]
    split
    · exact corresponds_constructWith hfin hal hopr _ h
    · exact .error rfl rfl (.refl _)

theorem corresponds_performWith (h : SameRequest first second q request') :
    Corresponds first second (Build.performWith finish q)
      (Build.performWith finish' request') Same := by
  cases h with
  | apply op h => exact corresponds_applyWith hfin hal hopr op h
  | member h field => exact corresponds_memberWith hfin hal hopr h field
  | index h pos => exact corresponds_indexWith hfin hal hopr h pos
  | construct t h => exact corresponds_constructWith hfin hal hopr t h
  | read h => exact (matches_read hal h).corresponds
  | constant t v => exact (matches_constant hal t v).corresponds
  | one t => exact (matches_one hal t).corresponds

end

end Requests

section Uniform

/-- The search for a replacement has the same outcome for corresponding operands, however many
replacements are still allowed. -/
theorem performs_perform (hun : operators.Uniform) (rest : Nat) :
    Performs operators (Build.perform rest) (Build.perform rest) := by
  intro first second q request' hal hopr h
  refine Corresponds.matches ?_ hal (perform_leads _ _ _) (perform_leads _ _ _)
  induction rest generalizing first second q request' with
  | zero =>
    refine corresponds_performWith (finishesAlike_finish fun hal _ _ ↦ ?_) hal hopr h
    exact .after_ok (matches_throw hal (by exact rfl)) (run_get _) (run_get _)
  | succ rest ih =>
    refine corresponds_performWith (finishesAlike_finish fun hal hopr h ↦ ?_) hal hopr h
    refine matches_replace? (fun first second _ _ hal hsame h ↦ ?_) hal (hopr ▸ hun) h
    exact (ih hal (hsame.trans hopr) h).matches hal (perform_leads _ _ _) (perform_leads _ _ _)

/-- A request for an expression has the same outcome wherever operators, types and options are the
same and the operands stand for the same terms. -/
theorem matches_request (hun : first.operators.Uniform) (hal : first.Alike second)
    (h : SameRequest first second q request') :
    Matches first second (Build.request q) (Build.request request') Same := by
  refine (performs_perform hun first.options.replacementLimit hal rfl h).of_later rfl ?_ (.refl _)
    (.refl _)
  rw [← hal.options]
  rfl

theorem matches_rebuild (hun : first.operators.Uniform) (hal : first.Alike second)
    (op : Operator) (t : String) (h : Forall₂ (Same first second) args args') :
    Matches first second (Build.rebuild op t args)
      (Build.rebuild op t args') Same := by
  cases op with
  | registered name pos =>
    refine matches_request hun hal (.apply name ?_)
    rw [forall₂_map_left_iff, forall₂_map_right_iff]
    exact h.imp fun _ _ h ↦ .node h
  | construct => exact matches_request hun hal (.construct t h)
  | member field =>
    cases h with
    | nil => exact matches_throw hal (.refl _)
    | cons hba _ => exact matches_request hun hal (.member hba field)
  | index pos =>
    cases h with
    | nil => exact matches_throw hal (.refl _)
    | cons hba _ => exact matches_request hun hal (.index hba pos)

end Uniform

end Draft

end DiffGraph
