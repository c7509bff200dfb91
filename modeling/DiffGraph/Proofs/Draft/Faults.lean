import DiffGraph.Proofs.Draft.Slots
import DiffGraph.Proofs.Draft.Sweeps
import DiffGraph.Proofs.Operator.PlanOutcomes

/-!
What operations keep and how they fail. Only the sweep of an adjoint finds a gradient finalized, so
an operation on a draft fails with some other error, unless a rule of an operator makes this one up.
And an application becomes a node only after the search for a replacement, which fails if none is
allowed: a draft that allows none has no expressions.

Both are read off the same walk through the operations (`Guards`), which begins here with requests.
-/

set_option autoImplicit false

namespace DiffGraph

open Build Option List

variable {α : Type} {isAddress : Bool} {d draft : Draft} {args : List NodeId} {kind : NodeKind}
  {op : Operator} {t : String}

open Stateful Draft

/-- What is watched over: the faults that operations may have, a limit to replacements, and operators
whose rules of replacement have these faults only. -/
structure Guard where
  fault : Error → Prop
  limit : Nat
  operators : Registry
  basic : ∀ error : Error, error.Basic → fault error
  rules : ∀ ov ∈ operators.overloads, ∀ rule, ov.rules.replace = some rule →
    ∀ args, (rule args).FailsWithin fault
  /-- To run out of replacements is such a fault, or there are enough of them. -/
  enough : (∀ name number, fault (.replacementLimit name number)) ∨
    operators = .standard ∧ 2 ≤ limit

/-- A draft with the limit and the operators. It has no expressions if no replacement is allowed.
Addresses are read, but what was read is no address. -/
structure Draft.Guarded (guard : Guard) (d : Draft) : Prop where
  limit_eq : d.options.replacementLimit = guard.limit
  operators_eq : d.operators = guard.operators
  bare : guard.limit = 0 →
    ∀ ⦃id : NodeId⦄ ⦃n : Node⦄ ⦃op : Operator⦄ ⦃args : List NodeId⦄,
      d.graph.node? id = some n → n.kind ≠ .expression op args
  reads : ∀ ⦃id addr : NodeId⦄ ⦃n : Node⦄, d.graph.node? id = some n →
    n.kind = .read addr → n.isAddress = false ∧
      ∃ tgt, d.graph.node? addr = some tgt ∧ tgt.isAddress = true

section Guarded

variable {guard : Guard} {d draft : Draft}

theorem Draft.guarded_new (owner : Nat) (name : String) (ts : TypeTable) {options : Options}
    (hlim : options.replacementLimit = guard.limit) :
    (Draft.new owner name guard.operators ts options).Guarded guard where
  limit_eq := hlim
  operators_eq := rfl
  bare _ _ _ _ _ hn := by simp [Draft.new, Graph.empty, Graph.node?] at hn
  reads _ _ _ hn := by simp [Draft.new, Graph.empty, Graph.node?] at hn

/-- The condition asks for options, operators and the graph only. -/
theorem Draft.Guarded.of_same (h : d.Guarded guard) {other : Draft}
    (hopts : other.options = d.options) (hopr : other.operators = d.operators)
    (hgraph : other.graph = d.graph) : other.Guarded guard :=
  ⟨hopts ▸ h.limit_eq, hopr.trans h.operators_eq, hgraph ▸ h.bare, hgraph ▸ h.reads⟩

theorem Draft.Guarded.overload (h : d.Guarded guard) {name : String} {pos : Nat}
    {ov : Overload} (hov : d.operators.overload? name pos = some ov) :
    ov ∈ guard.operators.overloads := by
  rw [← h.operators_eq]
  exact (mem_filter.mp (mem_of_getElem? hov)).1

/-- A node that is no expression can be formed at any time, an expression only where replacements are
allowed. -/
theorem Draft.Guarded.intern (h : d.Guarded guard) (owned : ∀ arg ∈ kind.operands, d.graph.Owns arg)
    (hk : guard.limit = 0 → ∀ op args, kind ≠ .expression op args)
    (hrd : ∀ address, kind = .read address → isAddress = false ∧
      ∃ tgt, d.graph.node? address = some tgt ∧ tgt.isAddress = true) :
    Draft.Guarded guard
      { d with graph := (d.graph.intern t kind isAddress owned).2 } where
  limit_eq := h.limit_eq
  operators_eq := h.operators_eq
  bare hlim _ _ _ _ hn := by
    rcases Graph.node?_intern_cases owned hn with hold | ⟨-, -, hsame, -⟩
    · exact h.bare hlim hold
    · exact hsame ▸ hk hlim _ _
  reads id address node hn hreads := by
    have hext : d.graph.Extends (d.graph.intern t kind isAddress owned).2 :=
      Graph.extends_intern owned
    rcases Graph.node?_intern_cases owned hn with hold | ⟨-, -, hsame, hv⟩
    · obtain ⟨hv, tgt, htg, haddr⟩ := h.reads hold hreads
      exact ⟨hv, tgt, hext.node? htg, haddr⟩
    · obtain ⟨hnot, tgt, htg, haddr⟩ := hrd address (hsame.symm.trans hreads)
      exact ⟨hv.trans hnot, tgt, hext.node? htg, haddr⟩

end Guarded

/-- The operation keeps a draft guarded, and fails with the faults only. -/
abbrev Build.Guards (guard : Guard) {α : Type} (x : Build α) : Prop :=
  Keeps (Draft.Guarded guard) (fun error d ↦ d.Guarded guard ∧ guard.fault error) x

/-- The same of one draft. -/
abbrev Build.GuardsAt (guard : Guard) {α : Type} (x : Build α) (d : Draft) : Prop :=
  KeepsAt (Draft.Guarded guard) (fun error d ↦ d.Guarded guard ∧ guard.fault error) x
    d

namespace Build

variable {guard : Guard}

theorem allows_guarded : Allows (Draft.Guarded guard) fun error d ↦
    d.Guarded guard ∧ guard.fault error :=
  fun _ hbs _ h ↦ ⟨h, guard.basic _ hbs⟩

section Nodes

/-- An expression is formed only where replacements are allowed, and a read only of an address. -/
theorem intern_guardsAt (t : String) (isAddress : Bool)
    (hk : guard.limit = 0 → ∀ op args, kind ≠ .expression op args)
    (hrd : ∀ addr, kind = .read addr → isAddress = false ∧
      ∃ tgt, draft.graph.node? addr = some tgt ∧ tgt.isAddress = true)
    (h : draft.Guarded guard) : GuardsAt guard (intern t kind isAddress) draft := by
  unfold GuardsAt KeepsAt
  by_cases owned : ∀ arg ∈ kind.operands, draft.graph.Owns arg
  · rw [run_intern owned]
    refine ⟨fun m d' hr ↦ ?_, fun _ _ hr ↦ by cases hr⟩
    cases hr
    exact h.intern owned hk hrd
  · have hr : (intern t kind isAddress).run draft =
        (.error (.foreignNode _), draft) := dif_neg owned
    rw [hr]
    exact allows_guarded.fails (by trivial) h

theorem intern_guards (t : String) (isAddress : Bool)
    (hk : guard.limit = 0 → ∀ op args, kind ≠ .expression op args)
    (hrd : ∀ addr, kind ≠ .read addr) : Guards guard (intern t kind isAddress) :=
  fun _ h ↦ intern_guardsAt t isAddress hk (fun addr heq ↦ absurd heq (hrd addr)) h

/-- Questions, single nodes that are not expressions and extensions of types keep a draft guarded. -/
theorem preparing_guarded : Preparing (Draft.Guarded guard) fun error draft ↦
    draft.Guarded guard ∧ guard.fault error where
  allows := allows_guarded
  intern draft type kind hforms hk h := by
    refine intern_guardsAt type false (fun _ ↦ hk) (fun addr heq ↦ ⟨rfl, ?_⟩) h
    subst heq
    cases hforms with
    | read htg haddr => exact ⟨_, htg, haddr⟩
  types _ _ _ _ _ h _ := h.of_same rfl rfl rfl

theorem declareArgument_guards (name t : String) (dir : Direction) :
    Guards guard (declareArgument name t dir) := by
  refine keeps_get fun d _ ↦ ?_
  have hdeclare : Guards guard (do
      let id ← intern t (.argument name dir) true
      modify fun d ↦ { d with arguments := d.arguments ++ [(name, id)] }
      return id : Build NodeId) := by
    refine (intern_guards _ _ (fun _ _ _ h ↦ by cases h) fun _ h ↦ by cases h).bind fun id ↦ ?_
    exact (keeps_modify fun _ h ↦ h.of_same rfl rfl rfl).bind fun _ ↦ keeps_pure id
  split
  · exact (allows_guarded.fails (by trivial)).bind fun _ ↦ hdeclare
  · exact hdeclare

theorem declare_guards (name t : String) (dir : Direction) : Guards guard (declare name t dir) :=
  (allows_guarded.lookupType t).bind fun _ ↦ declareArgument_guards _ _ _

theorem recordWrite_guards (id : NodeId) : Guards guard (recordWrite id) := by
  refine keeps_modify fun d h ↦ ?_
  split
  · exact h
  · exact h.of_same rfl rfl rfl

theorem write_guards (addr : NodeId) (v : Operand) : Guards guard (write addr v) := by
  refine (allows_guarded.checkOwned addr).bind fun _ ↦ ?_
  refine (allows_guarded.node addr).bind fun tgt ↦ ?_
  dsimp only
  split
  · exact (Allows.describe addr).bind fun _ ↦ keeps_throw_bind (allows_guarded (by trivial)) _
  refine keeps_get fun d _ ↦ ?_
  split
  · exact allows_guarded.fails trivial
  refine (preparing_guarded.writtenValue _ _).bind fun id ↦ ?_
  refine (allows_guarded.typeOf id).bind fun type ↦ ?_
  split
  · exact (Allows.describe addr).bind fun _ ↦ keeps_throw_bind (allows_guarded (by trivial)) _
  refine (intern_guards _ _ (fun _ _ _ h ↦ by cases h) fun _ h ↦ by cases h).bind fun id ↦ ?_
  exact (recordWrite_guards id).bind fun _ ↦ keeps_pure id

end Nodes

section Construction

theorem evaluate?_guards (op : Operator) (t : String) (args : List NodeId) :
    Guards guard (evaluate? op t args) := by
  intro d h
  rcases run_evaluate?_cases op t args d with
    hr | ⟨v, hr⟩ | ⟨error, hbs, hr⟩ <;> rw [hr]
  · exact keeps_pure _ h
  · exact ((preparing_guarded.constant _ _).bind fun _ ↦ keeps_pure _) h
  · exact allows_guarded.fails hbs h

section Replacement

variable {perform : Request → Build NodeId}

theorem Guards.answer {x : Build α} (h : Guards guard x)
    (hd : d.Guarded guard) : (x.run d).2.Guarded guard ∧
      ∀ error, (x.run d).1 = .error error → guard.fault error := by
  rcases hr : x.run d with ⟨error | found, d'⟩
  · refine ⟨((h hd).2 hr).1, fun error' he ↦ ?_⟩
    exact Except.error.inj he ▸ ((h hd).2 hr).2
  · exact ⟨(h hd).1 hr, fun _ he ↦ by cases he⟩

/-- A plan keeps what the requests keep that it makes. -/
theorem plan_guards {allowed : Request → Prop} {res : List NodeId → α → Prop}
    {k : List NodeId} (hperform : ∀ q, allowed q → Guards guard (perform q))
    {plan : Plan α} (h : plan.FailsWithin guard.fault) (hasks : plan.Confined allowed res k) :
    Guards guard (plan.run perform) := by
  induction plan generalizing k with
  | done res => exact keeps_pure res
  | fail error => exact keeps_throw fun _ hd ↦ ⟨hd, h⟩
  | build q next ih =>
    intro d hd
    have hans := (hperform q hasks.1).answer hd
    have hr : ((Plan.build q next).run perform).run d = _ :=
      run_bind_of_ok (run_observe (perform q) d)
    rw [hr]
    have hnx := h _ hans.2
    cases hmet : ((perform q).run d).1 with
    | ok id => exact ih _ (hmet ▸ hnx) (hasks.2.1 id) hans.1
    | error error => exact ih _ (hmet ▸ hnx) (hasks.2.2 error) hans.1
  | inspect id next ih =>
    exact (allows_guarded.node id).bind fun n ↦ ih n (h n) (hasks n)
  | isZero id next ih =>
    exact (allows_guarded.isZero id).bind fun answer ↦ ih answer (h answer) (hasks answer)
  | isOne id next ih =>
    exact (allows_guarded.isOne id).bind fun answer ↦ ih answer (h answer) (hasks answer)

/-- A plan that is carried out has a result that it can end with. -/
theorem result_of_run_plan (hperform : ∀ q, Guards guard (perform q)) {res : α → Prop}
    {plan : Plan α} (h : plan.Yields guard.fault res) {d' : Draft} (hd : d.Guarded guard)
    {found : α} (hr : (plan.run perform).run d = (.ok found, d')) : res found := by
  induction plan generalizing d with
  | done => exact (Except.ok.inj (congrArg Prod.fst hr)) ▸ h
  | fail => cases hr
  | build q next ih =>
    have hans := (hperform q).answer hd
    have hnx : ((Plan.build q next).run perform).run d = _ :=
      run_bind_of_ok (run_observe (perform q) d)
    exact ih _ (h _ hans.2) hans.1 (hnx.symm.trans hr)
  | inspect id next ih =>
    obtain ⟨n, s, hn, hrs⟩ := ok_of_run_bind hr
    obtain ⟨-, rfl⟩ := ok_of_run_node hn
    exact ih n (h n) hd hrs
  | isZero _ _ ih | isOne _ _ ih =>
    obtain ⟨answer, s, hans, hrs⟩ := ok_of_run_bind hr
    obtain ⟨-, rfl⟩ := ok_of_run_query hans
    exact ih answer (h answer) hd hrs

/-- Slots of a value that was read are asked for at the address that it was read from. -/
theorem project_guardsAt {onAddress : NodeId → Request} {base : NodeId} {slot : Nat}
    (hp : ∀ ⦃n addr⦄, draft.graph.node? base = some n →
      n.kind = .read addr → GuardsAt guard (perform (onAddress addr)) draft)
    (h : draft.Guarded guard) : GuardsAt guard (project perform onAddress t base slot) draft := by
  refine KeepsAt.bind (allows_guarded.node base h) fun n d' hf h ↦ ?_
  obtain ⟨hn, rfl⟩ := ok_of_run_node hf
  split
  next =>
    split
    next => exact ((preparing_guarded.constant _ _).bind fun _ ↦ keeps_pure _) h
    next => exact keeps_pure _ h
  next => exact keeps_pure _ h
  next addr hk =>
    exact (hp hn hk).bind fun part _ _ h ↦ ((preparing_guarded.read part).bind fun _ ↦ keeps_pure _) h
  next => exact keeps_pure _ h

theorem replace?_guardsAt
    (hrus : ∀ name pos, op = .registered name pos →
      ∀ ov ∈ guard.operators.overloads, ∀ rule, ov.rules.replace = some rule →
        Guards guard ((rule args).run perform))
    (hp : ∀ ⦃base n addr q⦄, base ∈ args → draft.graph.node? base = some n →
      n.kind = .read addr → SlotRequest op addr q → GuardsAt guard (perform q) draft)
    (h : draft.Guarded guard) : GuardsAt guard (replace? perform op t args) draft := by
  unfold replace?
  split
  next name pos =>
    refine keeps_get (fun draft hd ↦ ?_) h
    split
    next rule hru =>
      obtain ⟨ov, hov, hrep⟩ := bind_eq_some_iff.mp hru
      exact hrus name pos rfl ov (hd.overload hov) rule hrep
    next => exact keeps_pure _
  next field base rest =>
    refine keepsAt_get (KeepsAt.bind (allows_guarded.typeOf base h) fun t' d' hf h ↦ ?_)
    obtain ⟨-, rfl⟩ := ok_of_run_typeOf hf
    split
    next =>
      exact project_guardsAt (fun _ addr hn hk ↦ hp mem_cons_self hn hk (.member addr field)) h
    next => exact keeps_pure _ h
  next pos base rest =>
    exact project_guardsAt (fun _ addr hn hk ↦ hp mem_cons_self hn hk (.index addr pos)) h
  next => exact keeps_pure _ h
  next => exact keeps_pure _ h
  next => exact keeps_pure _ h

/-- An application becomes a node only if the search for a replacement comes to an end. -/
theorem finish_guardsAt {replace : Operator → String → List NodeId → Build (Option NodeId)}
    (hrep : draft.Guarded guard → GuardsAt guard (replace op t args) draft)
    (hallowed : guard.limit = 0 → ∀ before d', (replace op t args).run before ≠ (.ok none, d'))
    (h : draft.Guarded guard) :
    GuardsAt guard (finish replace op t args isAddress) draft := by
  refine KeepsAt.bind (evaluate?_guards op t args h) fun evaluated d' hr h ↦ ?_
  cases evaluated with
  | some id => exact keeps_pure id h
  | none =>
    obtain rfl := draft_eq_of_run_evaluate?_none hr
    refine (hrep h).bind fun replaced d' hr h ↦ ?_
    cases replaced with
    | some id => exact keeps_pure id h
    | none =>
      exact intern_guards _ _ (fun hlim ↦ absurd hr (hallowed hlim _ _)) (fun _ h ↦ by cases h) h

end Replacement

section Requests

variable {finish : Operator → String → List NodeId → Bool → Build NodeId}
  (hfin : ∀ op type args isAddress,
    Guards guard (finish op type args isAddress))

include hfin

theorem performWith_guards (q : Request) : Guards guard (performWith finish q) := by
  intro draft h
  have hix (base : NodeId) (pos : Nat) : GuardsAt guard (indexWith finish base pos) draft :=
    (preparing_guarded.slot (.index base pos) h).keepsAt fun _ _ h _ ↦ hfin _ _ _ _ h
  cases q with
  | apply op args =>
    exact (preparing_guarded.apply op args h).keepsAt fun _ _ h _ ↦ hfin _ _ _ _ h
  | member base field =>
    exact (preparing_guarded.slot (.member base field) h).keepsAt fun _ _ h _ ↦ hfin _ _ _ _ h
  | index base pos => exact hix base pos
  | construct type arguments =>
    exact (preparing_guarded.construct [] type arguments h).keepsAt fun _ _ h _ ↦ hfin _ _ _ _ h
  | read addr => exact preparing_guarded.read _ h
  | constant type v => exact preparing_guarded.constant _ _ h
  | one type => exact preparing_guarded.one _ h
  | declare name type dir => exact declare_guards _ _ _ h
  | write addr v => exact write_guards _ _ h
  | writeNext addr v =>
    refine keepsAt_get (KeepsAt.bind (hix _ _) fun element _ _ h ↦ ?_)
    refine (write_guards _ _).bind (fun id ↦ ?_) h
    exact (keeps_modify fun _ h ↦ h.of_same rfl rfl rfl).bind fun _ ↦ keeps_pure id

end Requests

theorem perform_guards (hlim : ∀ name number, guard.fault (.replacementLimit name number))
    {rest : Nat} (hremaining : rest ≤ guard.limit) (q : Request) :
    Guards guard (perform rest q) := by
  induction rest generalizing q with
  | zero =>
    refine performWith_guards (fun _ _ _ _ d ↦ finish_guardsAt (fun h ↦ ?_) ?_) q
    · exact keeps_get (fun _ _ ↦ keeps_throw fun _ h ↦ ⟨h, hlim _ _⟩) h
    · exact fun _ _ _ hr ↦ by cases hr
  | succ rest ih =>
    have hall := ih (Nat.le_of_succ_le hremaining)
    refine performWith_guards (fun _ _ args _ d ↦ finish_guardsAt (fun h ↦
      replace?_guardsAt (fun _ _ _ ov hm rule hru ↦ ?_) ?_ h) ?_) q
    · exact plan_guards (fun q _ ↦ hall q)
        (guard.rules ov hm rule hru args) (Plan.confined_any _ [])
    · exact fun _ _ _ q _ _ _ _ ↦ hall q h
    · exact fun hz ↦ absurd hremaining (by omega)

section Standard

variable {rest remaining : Nat}

/-- The standard operators replace a single operand without nested replacements. -/
theorem negation_guards (hstandard : guard.operators = .standard) (hlim : guard.limit ≠ 0)
    (id : NodeId) : Guards guard (perform (rest + 1) (.apply "-" [.node id])) := by
  refine fun d h ↦ (preparing_guarded.apply "-" [.node id] h).keepsAt
    fun w reached h ⟨hsg, hplain⟩ ↦ ?_
  have hproj := hplain (by decide)
  refine finish_guardsAt (fun h ↦ replace?_guardsAt (fun name pos hopt ov hm rule hru ↦ ?_)
    (fun _ _ addr q _ _ _ hreq ↦ ?_) h) (fun hz ↦ absurd hz hlim) h
  · obtain ⟨type, hreplaces⟩ := Registry.standard_replaces (hstandard ▸ hm)
    exact plan_guards (fun _ hno ↦ hno.elim) (guard.rules ov hm rule hru w.operands)
      ((hreplaces.asks hru w.operands []).2 hsg)
  · cases hproj.symm.trans hreq.isProjection

/-- A slot of an address is not replaced. -/
theorem slot_guardsAt (hlim : guard.limit ≠ 0) {addr : NodeId} {q : Request} {tgt : Node}
    (hreq : SlotRequest op addr q) (htg : draft.graph.node? addr = some tgt)
    (hnot : ∀ inner, tgt.kind ≠ .read inner) (h : draft.Guarded guard) :
    GuardsAt guard (perform (rest + 1) q) draft := by
  rcases slot_cases hreq draft with ⟨error, hbs, hr⟩ | ⟨types, _, _, _, type, -, -, -, -, hr⟩
  · unfold GuardsAt KeepsAt
    rw [perform, hr]
    exact allows_guarded.fails hbs h
  unfold GuardsAt KeepsAt
  rw [perform, hr]
  refine finish_guardsAt (fun h ↦ replace?_guardsAt (fun name pos hopt ↦ ?_)
    (fun base n inner _ hba hn hk _ ↦ ?_) h) (fun hz ↦ absurd hz hlim)
    (h.of_same rfl rfl rfl)
  · cases hreq <;> cases hopt
  · obtain rfl := mem_singleton.mp hba
    cases hn.symm.trans htg
    exact absurd hk (hnot inner)

/-- Requests keep a draft guarded. The standard operators get by with two nested replacements: where
one of them asks for a negation or a slot in place of another, nothing is asked for any more. -/
theorem request_guards (wanted : Request) : Guards guard (request wanted) := by
  refine keeps_get fun _ h ↦ ?_
  rw [h.limit_eq]
  rcases guard.enough with hlim | ⟨hstandard, hlim⟩
  · exact perform_guards hlim (Nat.le_refl _) wanted
  obtain ⟨remaining, hremaining⟩ := Nat.exists_eq_add_of_le' hlim
  have hpos : guard.limit ≠ 0 := by omega
  rw [hremaining]
  refine performWith_guards (fun _ _ args _ d ↦ finish_guardsAt (fun h ↦ replace?_guardsAt
    (fun _ _ _ overload hm rule hru ↦ ?_) (fun base node addr request _ hn hk hreq ↦ ?_) h)
    fun hz ↦ absurd hz hpos) wanted
  · obtain ⟨type, hreplaces⟩ := Registry.standard_replaces (hstandard ▸ hm)
    refine plan_guards (fun request hsimple ↦ ?_) (guard.rules overload hm rule hru args)
      (hreplaces.asks hru args []).1
    cases hsimple with
    | constant type value => exact preparing_guarded.constant type value
    | negation id => exact negation_guards hstandard hpos id
  · obtain ⟨-, target, htg, haddr⟩ := h.reads hn hk
    refine slot_guardsAt hpos hreq htg (fun inner hinner ↦ ?_) h
    cases (h.reads htg hinner).1.symm.trans haddr

end Standard
theorem carryOut_guards {plan : Plan α} (h : plan.FailsWithin guard.fault) :
    Guards guard (carryOut plan) :=
  plan_guards (fun wanted _ ↦ request_guards wanted) h (plan.confined_any [])

theorem watches_guarded (guard : Guard) : Watches (Draft.Guarded guard) fun error d ↦
    d.Guarded guard ∧ guard.fault error where
  allows := allows_guarded
  request wanted _ := request_guards wanted
  types _ _ _ _ _ h _ := h.of_same rfl rfl rfl

/-- The arguments and the copies that an adjoint begins with. -/
theorem adjointBody_guards (p : Draft) (ex : List String) : Guards guard (do
      (p.adjointArguments ex).forM fun (name, type, dir) ↦ do
        let _ ← Build.declareArgument name type dir
      Build.copyWrites p : Build Unit) := by
  refine (Keeps.forM fun e _ ↦ ?_).bind fun _ ↦ (watches_guarded guard).copyWrites write_guards p
  exact (declareArgument_guards _ _ _).bind fun _ ↦ keeps_pure _

end Construction

end Build

namespace Reverse

variable {guard : Guard} {gradients : Accumulator → Prop}

/-- A rule passes a gradient on to the nodes that it names. -/
theorem maintains_flows {cond : Draft → Prop} {failing : Error → Draft → Prop}
    {allowed : NodeId → Prop} {plan : Plan (List Contribution)}
    (hguarded : ∀ d, cond d → d.Guarded guard)
    (hyields : plan.Yields guard.fault fun flows ↦ ∀ flow ∈ flows, allowed flow.target)
    (hplan : Keeps cond failing (carryOut plan)) (hpu : ∀ target, allowed target → ∀ amount,
      Maintains cond failing gradients (push target amount)) :
    Maintains cond failing gradients (do
      let flows ← onDraft (carryOut plan)
      flows.forM fun flow ↦ push flow.target flow.amount) := by
  refine (Maintains.onDraft hplan).bind_of_ok fun flows before after hbf hr ↦ ?_
  obtain ⟨d, hcarried, -⟩ := ok_of_run_onDraft hr
  have htgs := result_of_run_plan request_guards hyields (hguarded _ hbf.1) hcarried
  exact .forM fun flow hflow ↦ hpu _ (htgs flow hflow) _

end Reverse

/-- All rules of the operators have these faults only, and to find a gradient finalized is one. -/
structure Guard.Covers (guard : Guard) : Prop where
  rules : ∀ ov ∈ guard.operators.overloads, ov.FailsWithin guard.fault
  final : ∀ text, guard.fault (.gradientFinalized text)

section Operations

variable {guard : Guard} {d draft : Draft} (hcovers : guard.Covers)

include hcovers

namespace Build

theorem differentiateOnce_guards (addr id : NodeId) : Guards guard (differentiateOnce addr id) := by
  refine keeps_get fun d _ ↦ ?_
  split
  · exact keeps_pure _
  · refine ((watches_guarded guard).differentiateNode (fun d _ _ rule hd hru _ _ ↦ ?_)
      addr id).bind fun deriv ↦ ?_
    · obtain ⟨ov, hov, hderivative⟩ := bind_eq_some_iff.mp hru
      exact carryOut_guards ((hcovers.rules ov (hd.overload hov)).derivative rule hderivative _ _)
    · exact (keeps_modify fun _ h ↦ h.of_same rfl rfl rfl).bind fun _ ↦ keeps_pure _

theorem differentiate_guards (addr id : NodeId) : Guards guard (differentiate addr id) := by
  refine (allows_guarded.checkOwned addr).bind fun _ ↦ ?_
  refine (allows_guarded.checkOwned id).bind fun _ ↦ ?_
  refine (allows_guarded.node addr).bind fun _ ↦ ?_
  extract_lets source
  refine (allows_guarded.node source).bind fun _ ↦ ?_
  split
  · exact (Allows.describe source).bind fun _ ↦ keeps_throw_bind (allows_guarded (by trivial)) _
  refine keeps_get fun d _ ↦ ?_
  split
  · exact keeps_pure _
  · refine keeps_get fun d _ ↦ (Keeps.forM fun part _ ↦ ?_).bind fun _ ↦ ?_
    · exact (differentiateOnce_guards hcovers _ _).bind fun _ ↦ keeps_pure _
    · exact differentiateOnce_guards hcovers _ _

theorem oversees_guarded : Oversees (Draft.Guarded guard) fun error draft ↦
    draft.Guarded guard ∧ guard.fault error where
  toWatches := watches_guarded guard
  write := write_guards
  gradient draft _ _ rule hd hru _ _ := by
    obtain ⟨ov, hov, hgrad⟩ := bind_eq_some_iff.mp hru
    exact carryOut_guards ((hcovers.rules ov (hd.overload hov)).gradient rule hgrad _ _)
  final text _ h := ⟨h, hcovers.final text⟩

end Build

namespace Draft

/-- Every operation keeps a draft guarded, and fails with the faults only. -/
theorem Guarded.operate (h : d.Guarded guard) (operation : Operation) :
    (d.after operation).Guarded guard ∧ ∀ error, d.Fails error operation → guard.fault error := by
  have hwatches := watches_guarded guard
  cases operation with
  | request request => exact (request_guards request).answer h
  | declareArguments outputs updates inputs =>
    have hdeclare : Build.Guards guard (Build.declareArguments outputs updates inputs) :=
      .forM fun entry _ ↦ (declare_guards _ _ _).bind fun _ ↦ keeps_pure _
    exact hdeclare.answer h
  | addPreamble | addPostamble =>
    exact ⟨h.of_same rfl rfl rfl, fun _ hfl ↦ by cases hfl⟩
  | differentiate addr id => exact (differentiate_guards hcovers addr id).answer h
  | substitute bindings id => exact Guards.answer (hwatches.substitute bindings id) h
  | evaluate env id => exact Guards.answer (hwatches.evaluate env id) h
  | evaluateWrites env => exact Guards.answer (hwatches.evaluateWrites env) h
  | total acc id =>
    have htot := (oversees_guarded hcovers).total id
    show ((Reverse.total id).run ⟨d, acc⟩).2.draft.Guarded guard ∧
      ∀ error, ((Reverse.total id).run ⟨d, acc⟩).1 = .error error → guard.fault error
    rcases hr : (Reverse.total id).run ⟨d, acc⟩ with ⟨error | _, after⟩
    · have hfl := (htot ⟨h, trivial⟩).2 hr
      exact ⟨hfl.1, fun _ heq ↦ Except.error.inj heq ▸ hfl.2⟩
    · exact ⟨((htot ⟨h, trivial⟩).1 hr).1, fun _ heq ↦ by cases heq⟩

/-- So does taking the adjoint, which begins with a new draft. -/
theorem Guarded.adjoint (h : d.Guarded guard) (owner : Nat) (ex : List String) :
    KeepsAt (fun sw ↦ sw.draft.Guarded guard) (fun error _ ↦ guard.fault error)
      (Reverse.adjoint d ex) (d.adjointStart owner) := by
  have hsta : (d.adjointStart owner).draft.Guarded guard :=
    (guarded_new owner d.name d.types h.limit_eq).of_same rfl h.operators_eq rfl
  have hadj : KeepsAt _ _ (Reverse.adjoint d ex) (d.adjointStart owner) :=
    (oversees_guarded hcovers).adjoint (.forM fun e _ ↦
      (declareArgument_guards _ _ _).bind fun _ ↦ keeps_pure _) ⟨hsta, trivial⟩
  exact ⟨fun _ _ hr ↦ (hadj.1 hr).1, fun _ _ hr ↦ (hadj.2 hr).2⟩

end Draft

end Operations

end DiffGraph
