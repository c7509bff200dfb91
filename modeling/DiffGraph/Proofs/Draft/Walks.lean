import DiffGraph.Proofs.Draft.Contributions
import DiffGraph.Proofs.Draft.Keeping

/-!
One walk through the operations. Derivatives, substitution, evaluation, sums and the adjoint are made
of questions, which change nothing, of requests and of extensions of types. What these keep
(`Build.Watches`) is therefore kept by all of them.
-/

set_option autoImplicit false

namespace DiffGraph

variable {α β : Type}

open Stateful List

namespace Build

variable {cond : Draft → Prop} {failing : Error → Draft → Prop}

theorem Allows.typesOf (h : Allows cond failing) (ids : List NodeId) :
    Keeps cond failing (Build.typesOf ids) :=
  .mapM h.typeOf

/-- Questions, requests for expressions and extensions of types keep the condition. -/
structure Watches (cond : Draft → Prop) (failing : Error → Draft → Prop) : Prop where
  allows : Allows cond failing
  request : ∀ w : Request, w.Builds → Keeps cond failing (Build.request w)
  types : ∀ ⦃d : Draft⦄ ⦃name field : String⦄ ⦃m : Nat × String⦄ ⦃types : TypeTable⦄,
    cond d → d.types.member name field = .ok (m, types) →
      cond { d with types }

namespace Watches

variable (h : Watches cond failing)

include h

theorem constant (t : String) (v : Value) : Keeps cond failing (Build.constant t v) :=
  (h.request (.constant t v) trivial).congr fun d ↦ by
    show _ = (perform _ _).run d
    cases d.options.replacementLimit <;> rfl

theorem one (t : String) : Keeps cond failing (Build.one t) :=
  (h.request (.one t) trivial).congr fun d ↦ by
    show _ = (perform _ _).run d
    cases d.options.replacementLimit <;> rfl

theorem read (addr : NodeId) : Keeps cond failing (Build.read addr) :=
  (h.request (.read addr) trivial).congr fun d ↦ by
    show _ = (perform _ _).run d
    cases d.options.replacementLimit <;> rfl

theorem rebuild (op : Operator) (t : String) (args : List NodeId) :
    Keeps cond failing (Build.rebuild op t args) := by
  unfold Build.rebuild
  split
  · exact h.request _ trivial
  · exact h.request _ trivial
  · exact h.request _ trivial
  · exact h.request _ trivial
  · exact h.allows.fails trivial
  · exact h.allows.fails trivial

section Derivatives

theorem tangent (addr arg : NodeId) : Keeps cond failing (Build.tangent addr arg) := by
  refine keeps_get fun d _ ↦ ?_
  split
  · exact keeps_pure _
  · exact h.allows.describe_failure _ fun _ ↦ trivial

theorem unitIf (isAddress : Bool) (t : String) : Keeps cond failing (Build.unitIf isAddress t) := by
  unfold Build.unitIf
  split
  · exact h.one _
  · exact h.constant _ _

variable (hrus : ∀ ⦃d : Draft⦄ ⦃name : String⦄ ⦃pos : Nat⦄
    ⦃rule : List NodeId → List NodeId → Plan NodeId⦄, cond d →
      ((d.operators.overload? name pos).bind fun o ↦ o.rules.derivative) = some rule →
        ∀ args tangents, Keeps cond failing (carryOut (rule args tangents)))

include hrus

/-- Derivatives of applications follow the rules of the operators. -/
theorem differentiateExpression (addr : NodeId) (t : String) (op : Operator) (args : List NodeId) :
    Keeps cond failing (Build.differentiateExpression addr t op args) := by
  have htan : Keeps cond failing (args.mapM (Build.tangent addr)) := .mapM (h.tangent addr)
  cases op with
  | registered name ov =>
    refine keeps_get fun d hd ↦ ?_
    split
    · exact (h.allows.typesOf args).bind fun _ ↦ h.allows.fails trivial
    next rule hru => exact htan.bind (hrus hd hru args)
  | member | index | construct => exact htan.bind fun _ ↦ h.rebuild _ _ _

theorem differentiateNode (addr id : NodeId) :
    Keeps cond failing (Build.differentiateNode addr id) := by
  refine (h.allows.node id).bind fun n ↦ ?_
  split
  · exact h.constant _ _
  · exact h.unitIf _ _
  · exact h.unitIf _ _
  · exact h.allows.describe_failure _ fun _ ↦ trivial
  · split
    · exact h.unitIf _ _
    · exact h.differentiateExpression hrus _ _ _ _

end Derivatives

section Substitution

theorem descend (v : NodeId) (path : List NodeId) : Keeps cond failing (Build.descend v path) := by
  refine .foldlM (fun v part _ ↦ ?_) v
  refine (h.allows.node part).bind fun n ↦ ?_
  split
  · exact (h.allows.typeOf part).bind fun _ ↦ h.rebuild _ _ _
  · exact keeps_pure _

theorem boundValue? (bs : Bindings) (addr : NodeId) :
    Keeps cond failing (Build.boundValue? bs addr) := by
  refine keeps_get fun d _ ↦ ?_
  dsimp only
  split
  · exact keeps_pure _
  · split
    · exact keeps_pure _
    · exact (h.descend _ _).bind fun _ ↦ keeps_pure _

theorem substituteNode (bs rebuilt : Bindings) (id : NodeId) :
    Keeps cond failing (Build.substituteNode bs rebuilt id) := by
  refine (h.allows.node id).bind fun n ↦ ?_
  split
  · exact keeps_pure _
  · exact keeps_pure _
  · exact (h.boundValue? _ _).bind fun _ ↦ keeps_pure _
  · exact h.allows.describe_failure _ fun _ ↦ trivial
  · split
    · exact keeps_pure _
    · dsimp only
      split
      · exact keeps_pure _
      · exact h.rebuild _ _ _

theorem substitute (bs : Bindings) (id : NodeId) : Keeps cond failing (Build.substitute bs id) := by
  refine (h.allows.checkOwned id).bind fun _ ↦ keeps_get fun d _ ↦ ?_
  refine (Keeps.foldlM (fun rebuilt part _ ↦ ?_) _).bind fun _ ↦ keeps_pure _
  exact (h.substituteNode _ _ _).bind fun _ ↦ keeps_pure _

theorem bind (env : List (String × Value)) : Keeps cond failing (Build.bind env) := by
  refine .foldlM (fun bs e _ ↦ ?_) _
  refine (h.allows.argument _).bind fun addr ↦ ?_
  refine (h.allows.typeOf addr).bind fun t ↦ ?_
  exact (h.constant t _).bind fun _ ↦ keeps_pure _

theorem constantUnder (bs : Bindings) (id : NodeId) :
    Keeps cond failing (Build.constantUnder bs id) := by
  refine (h.substitute bs id).bind fun res ↦ ?_
  refine (h.allows.node res).bind fun n ↦ ?_
  split
  · exact keeps_pure _
  · exact h.allows.describe_failure _ fun _ ↦ trivial

theorem evaluate (env : List (String × Value)) (id : NodeId) :
    Keeps cond failing (Build.evaluate env id) :=
  (h.bind env).bind fun _ ↦ h.constantUnder _ _

theorem evaluateWrites (env : List (String × Value)) :
    Keeps cond failing (Build.evaluateWrites env) := by
  refine (h.bind env).bind fun bs ↦ keeps_get fun d _ ↦ ?_
  refine .foldlM (fun results id _ ↦ ?_) _
  refine (h.allows.node id).bind fun n ↦ ?_
  split
  · exact (h.constantUnder _ _).bind fun _ ↦ keeps_get fun _ _ ↦ keeps_pure _
  · exact keeps_pure _

end Substitution

section Gradients

theorem slot (op : Operator) (base : NodeId) : Keeps cond failing (Build.slot op base) := by
  unfold Build.slot
  split
  · exact h.request _ trivial
  · exact h.request _ trivial
  · exact h.allows.fails trivial
  · exact h.allows.fails trivial

theorem sumWithin (depth : Nat) (a b : NodeId) :
    Keeps cond failing (Build.sumWithin depth a b) := by
  induction depth generalizing a b with
  | zero => exact h.request _ trivial
  | succ depth ih =>
    refine (h.allows.typeOf a).bind fun _ ↦ (h.allows.typeOf b).bind fun _ ↦ ?_
    refine keeps_get fun d _ ↦ ?_
    split
    · exact h.request _ trivial
    refine (h.allows.isZero a).bind fun _ ↦ ?_
    split
    · exact keeps_pure b
    refine (h.allows.isZero b).bind fun _ ↦ ?_
    split
    · exact keeps_pure a
    refine (h.allows.lookupType _).bind fun defn ↦ ?_
    split
    · exact h.request _ trivial
    · refine (Keeps.mapM fun op ↦ ?_).bind fun _ ↦ h.request _ trivial
      refine (h.slot op a).bind fun left ↦ ?_
      exact (h.slot op b).bind fun right ↦ ih left right

theorem sum (a b : NodeId) : Keeps cond failing (Build.sum a b) :=
  keeps_get fun _ _ ↦ h.sumWithin _ _ _

theorem sumUp (id : NodeId) (amounts : List NodeId) :
    Keeps cond failing (Reverse.sumUp id amounts) := by
  cases amounts with
  | nil => exact (h.allows.typeOf id).bind fun _ ↦ h.constant _ _
  | cons first rest => exact .foldlM (fun a b _ ↦ h.sum a b) first

theorem partnerAddress? (partners : Partners) (addr : NodeId) :
    Keeps cond failing (Build.partnerAddress? partners addr) := by
  refine keeps_get fun d _ ↦ ?_
  dsimp only
  split
  · exact keeps_pure _
  · split
    · exact keeps_pure _
    · refine (h.allows.argument _).bind fun partner ↦ ?_
      exact (h.descend partner _).bind fun _ ↦ keeps_pure _

theorem slotTypes (op : Operator) (defn : TypeDefinition) :
    Keeps cond failing (Build.slotTypes op defn) := by
  unfold Build.slotTypes
  split
  · exact keeps_pure _
  · refine .mapM fun pos ↦ ?_
    split
    · exact keeps_pure _
    · exact h.allows.fails trivial
  · exact h.allows.fails trivial
  · exact h.allows.fails trivial
  · exact h.allows.fails trivial

theorem spread (op : Operator) (t : String) (pos : Nat) (gradient : NodeId) :
    Keeps cond failing (Build.spread op t pos gradient) := by
  refine (h.allows.lookupType t).bind fun defn ↦ ?_
  refine (h.slotTypes op defn).bind fun ts ↦ ?_
  refine (Keeps.mapM fun e ↦ ?_).bind fun _ ↦ h.request _ trivial
  dsimp only
  split
  · exact keeps_pure _
  · exact h.constant _ _

theorem memberPosition (t field : String) : Keeps cond failing (Build.memberPosition t field) := by
  intro d hd
  unfold Build.memberPosition
  rw [run_get_bind]
  split
  · exact h.allows.fails (by trivial) hd
  next hm => exact keeps_pure _ (h.types hd hm)

variable (hw : ∀ addr v, Keeps cond failing (Build.write addr v))

include hw

theorem copyNode (node : Node) (copies : Bindings) :
    Keeps cond failing (Build.copyNode node copies) := by
  unfold Build.copyNode
  extract_lets copied
  have hcd (id : NodeId) : Keeps cond failing (copied id) := by
    dsimp only [copied]
    split
    · exact keeps_pure _
    · exact h.allows.fails trivial
  split
  · exact h.constant _ _
  · exact h.allows.argument _
  · exact (hcd _).bind fun _ ↦ h.read _
  · exact (hcd _).bind fun _ ↦ (hcd _).bind fun _ ↦ hw _ _
  · exact (Keeps.mapM hcd).bind fun _ ↦ h.rebuild _ _ _

theorem copyWrites (src : Draft) : Keeps cond failing (Build.copyWrites src) := by
  refine (Keeps.array_foldlM (fun copies id _ ↦ ?_) _).bind fun _ ↦ keeps_pure _
  split
  · exact (h.copyNode hw _ _).bind fun _ ↦ keeps_pure _
  · exact h.allows.fails trivial

end Gradients

end Watches

end Build

/-- Nothing is asked of the accumulator. -/
def Accumulator.Free (_ : Accumulator) : Prop := True

/-- The values that the gradient of a node is passed on to. -/
def Node.sources (node : Node) : List NodeId :=
  match node.kind with
  | .write _ v => [v]
  | .expression _ args => if node.isAddress then [] else args
  | .constant _ | .argument .. | .read _ => []

/-- What is summed up when the node is visited: the gradient of the node itself, or that of the
address it writes to. -/
def Node.summed? (id : NodeId) (node : Node) : Option NodeId :=
  match node.kind with
  | .write addr _ => some addr
  | .read _ => some id
  | .expression .. => if node.isAddress then none else some id
  | .constant _ | .argument .. => none

namespace Reverse

open Build

variable {cond : Draft → Prop} {failing : Error → Draft → Prop} {gradients : Accumulator → Prop}
  {n : Node} {id : NodeId}

/-- The operation keeps a condition on the draft and one on the gradients. After a failure only the
draft matters. -/
abbrev Maintains (cond : Draft → Prop) (failing : Error → Draft → Prop)
    (gradients : Accumulator → Prop) (x : Reverse α) : Prop :=
  Keeps (fun sw : Sweep ↦ cond sw.draft ∧ gradients sw.accumulator)
    (fun error sw ↦ failing error sw.draft) x

theorem Maintains.onDraft {x : Build α} (h : Keeps cond failing x) :
    Maintains cond failing gradients (Reverse.onDraft x) := by
  refine fun sw hsw ↦ ⟨fun a d' hr ↦ ?_, fun error d' hr ↦ ?_⟩
  · obtain ⟨d, hd, rfl⟩ := ok_of_run_onDraft hr
    exact ⟨(h hsw.1).1 hd, hsw.2⟩
  · obtain ⟨he, rfl⟩ := Prod.mk.inj hr
    exact (h hsw.1).2 (Prod.ext he rfl)

theorem Maintains.moves {R : Draft → Draft → Prop} [IsPreorder Draft R] {x : Reverse α} {sw : Sweep}
    (h : Maintains (R sw.draft) (fun _ ↦ R sw.draft) Accumulator.Free x) :
    R sw.draft (x.run sw).2.draft := by
  rcases hr : x.run sw with ⟨_ | _, d'⟩
  · exact (h ⟨refl sw.draft, trivial⟩).2 hr
  · exact ((h ⟨refl sw.draft, trivial⟩).1 hr).1

/-- Something is added to a node that is open. Constants take no gradient. -/
theorem maintains_push (h : Build.Allows cond failing) {tgt : NodeId} (c : NodeId)
    (hadd : ∀ ⦃d n acc⦄, cond d → d.graph.node? tgt = some n →
      n.constant? = none → gradients acc → acc.totals[tgt]? = none → gradients (acc.add tgt c))
    (hfinal : ∀ ⦃acc⦄, gradients acc → acc.totals[tgt]? ≠ none →
      ∀ text ⦃d⦄, cond d → failing (.gradientFinalized text) d) :
    Maintains cond failing gradients (push tgt c) := by
  intro sw hsw
  refine ⟨fun ⟨⟩ d' hr ↦ ?_, fun error d' hr ↦ ?_⟩
  · obtain ⟨n, hn, -, hopen, rfl⟩ := ok_of_run_push hr
    refine ⟨hsw.1, ?_⟩
    dsimp only
    split
    · exact hsw.2
    next hvar => exact hadd hsw.1 hn (by simpa using hvar) hsw.2 hopen
  · obtain ⟨rfl, hbs | ⟨⟨text, rfl⟩, hkn⟩⟩ := error_of_run_push hr
    · exact h hbs hsw.1
    · exact hfinal hsw.2 hkn text hsw.1

/-- Passes the gradient of a node on to its sources. -/
def passOn (node : Node) (gradient : NodeId) : Reverse Unit :=
  match node.kind with
  | .write _ v => push v gradient
  | .expression op args =>
    if node.isAddress then return ()
    else throughExpression node.type op args gradient
  | .constant _ | .argument .. | .read _ => return ()

/-- A visit in two steps. -/
theorem run_visit {sweep : Sweep} (hn : sweep.draft.graph.node? id = some n) :
    (backward id).run sweep = (match n.summed? id with
      | some tgt => total tgt >>= passOn n
      | none => pure ⟨⟩ : Reverse Unit).run sweep := by
  rw [backward, run_bind_of_ok (run_onDraft (run_node_of_some hn))]
  unfold Node.summed? passOn
  cases n.kind <;> cases n.isAddress <;> rfl

section Walk

variable (h : Build.Watches cond failing)

include h

/-- A total can be asked for at any time. -/
theorem maintains_total (hclose : ∀ ⦃acc total before d'⦄, gradients acc →
      acc.totals[id]? = none → (sumUp id (acc.pending id)).run before = (.ok total, d') →
          gradients (acc.close id total)) :
    Maintains cond failing gradients (total id) := by
  intro sw hsw
  refine ⟨fun m d' hr ↦ ?_, fun error d' hr ↦ ?_⟩
  · rcases ok_of_run_total hr with ⟨-, rfl⟩ | ⟨hopen, d, hsum, rfl⟩
    · exact hsw
    · exact ⟨(h.sumUp _ _ hsw.1).1 hsum, hclose hsw.2 hopen hsum⟩
  · obtain ⟨d, hsum, rfl⟩ := error_of_run_total hr
    exact (h.sumUp _ _ hsw.1).2 hsum

section Expressions

variable {args : List NodeId}
  (hpu : ∀ arg ∈ args, ∀ c, Maintains cond failing gradients (push arg c))

include hpu

theorem maintains_throughConstructor (t : String) (gradient : NodeId) :
    Maintains cond failing gradients (throughConstructor t args gradient) := by
  have hreq (w : Request) (hbld : w.Builds) {tgt : NodeId} (htg : tgt ∈ args) :
      Maintains cond failing gradients (do push tgt (← onDraft (Build.request w))) :=
    (Maintains.onDraft (h.request w hbld)).bind (hpu tgt htg)
  refine (Maintains.onDraft (h.allows.lookupType t)).bind fun defn ↦ ?_
  split
  · split
    · exact keeps_pure _
    · refine (Maintains.onDraft (h.allows.typeOf _)).bind fun _ ↦ ?_
      refine (Maintains.onDraft (h.allows.lookupType _)).bind fun _ ↦ ?_
      split
      · exact hreq _ (by trivial) mem_cons_self
      · exact keeps_pure _
  · exact .forM fun e hen ↦ hreq _ (by trivial) (of_mem_zip hen).2
  · exact .forM fun e hen ↦ hreq _ (by trivial) (fst_mem_of_mem_zipIdx hen)
  · refine (Maintains.onDraft (h.allows.typesOf args)).bind fun _ ↦ ?_
    exact keeps_throw fun _ hsw ↦ h.allows (by trivial) hsw.1

/-- A gradient is passed on to the operands, or by the rule of the operator. -/
theorem maintains_throughExpression (t : String) (op : Operator) (gradient : NodeId)
    (hrus : ∀ ⦃d : Draft⦄ ⦃name : String⦄ ⦃pos : Nat⦄
      ⦃rule : List NodeId → NodeId → Plan (List Contribution)⦄, cond d →
        ((d.operators.overload? name pos).bind fun o ↦ o.rules.gradient) = some rule →
          Maintains cond failing gradients (do
            let flows ← onDraft (Build.carryOut (rule args gradient))
            flows.forM fun flow ↦ push flow.target flow.amount)) :
    Maintains cond failing gradients (throughExpression t op args gradient) := by
  unfold throughExpression
  split
  · refine keeps_get fun sw hsw ↦ ?_
    split
    · refine (Maintains.onDraft (h.allows.typesOf _)).bind fun _ ↦ ?_
      exact keeps_throw fun _ hsw ↦ h.allows (by trivial) hsw.1
    next rule hf => exact hrus hsw.1 hf
  · refine (Maintains.onDraft ?_).bind (hpu _ mem_cons_self)
    refine (h.allows.typeOf _).bind fun t ↦ ?_
    exact (h.memberPosition t _).bind fun _ ↦ h.spread _ _ _ _
  · refine (Maintains.onDraft ?_).bind (hpu _ mem_cons_self)
    exact (h.allows.typeOf _).bind fun t ↦ h.spread _ _ _ _
  · exact maintains_throughConstructor h hpu t gradient
  · exact keeps_pure _
  · exact keeps_pure _

end Expressions

theorem maintains_seed (seeds : Partners) {order : Array NodeId}
    (hpu : ∀ id ∈ order, ∀ ⦃d n addr v⦄, cond d →
      d.graph.node? id = some n → n.kind = .write addr v →
        ∀ c, Maintains cond failing gradients (push addr c)) :
    Maintains cond failing gradients (seed seeds order) := by
  refine (Keeps.array_foldlM (fun seeded id hid ↦ ?_) _).bind fun _ ↦ keeps_pure _
  refine (Maintains.onDraft (h.allows.node id)).bind_of_ok fun n s s' hs hr ↦ ?_
  obtain ⟨d, hf, -⟩ := ok_of_run_onDraft hr
  obtain ⟨hn, -⟩ := ok_of_run_node hf
  split
  next addr v hk =>
    split
    · exact keeps_pure _
    refine (Maintains.onDraft (h.partnerAddress? _ _)).bind fun m ↦ ?_
    split
    · refine (Maintains.onDraft (h.read _)).bind fun c ↦ ?_
      exact (hpu id hid hs.1 hn hk c).bind fun _ ↦ keeps_pure _
    · exact keeps_pure _
  next => exact keeps_pure _

/-- A visit sums up what is due and passes it on to the sources of the node. -/
theorem maintains_backward (hvisit : ∀ ⦃d n⦄, cond d → d.graph.node? id = some n →
      (∀ tgt, n.summed? id = some tgt → Maintains cond failing gradients (total tgt)) ∧
      ∀ gradient, Maintains cond failing gradients (passOn n gradient)) :
    Maintains cond failing gradients (backward id) := by
  intro sw hsw
  cases hn : sw.draft.graph.node? id with
  | none =>
    have hfor : (onDraft (Build.node id)).run sw =
        (.error (.foreignAccess id.index sw.draft.name), sw) :=
      run_onDraft (by rw [Build.node, run_query, Draft.node, hn])
    rw [backward, run_bind_of_error hfor]
    refine ⟨fun _ _ hr ↦ (by cases hr), fun error d' hr ↦ ?_⟩
    cases hr
    exact h.allows (by trivial) hsw.1
  | some n =>
    obtain ⟨htot, hpass⟩ := hvisit hsw.1 hn
    rw [run_visit hn]
    split
    next tgt htg => exact (htot tgt htg).bind hpass hsw
    next => exact keeps_pure _ hsw

theorem maintains_passOn (gradient : NodeId) (hpu : ∀ src ∈ n.sources, ∀ c,
      Maintains cond failing gradients (push src c))
    (hrus : ∀ ⦃op args⦄, n.kind = .expression op args →
      n.isAddress = false → ∀ ⦃d : Draft⦄ ⦃name : String⦄ ⦃pos : Nat⦄
        ⦃rule : List NodeId → NodeId → Plan (List Contribution)⦄, cond d →
          ((d.operators.overload? name pos).bind fun o ↦ o.rules.gradient) = some rule →
            Maintains cond failing gradients (do
              let flows ← onDraft (Build.carryOut (rule args gradient))
              flows.forM fun flow ↦ push flow.target flow.amount)) :
    Maintains cond failing gradients (passOn n gradient) := by
  unfold Node.sources at hpu
  unfold passOn
  split
  next addr v hk =>
    rw [hk] at hpu
    exact hpu v mem_cons_self gradient
  next op args hk =>
    split
    next => exact keeps_pure _
    next hv =>
      simp only [hk, hv, Bool.false_eq_true, if_false] at hpu
      exact maintains_throughExpression h hpu _ _ _ (hrus hk (by simpa using hv))
  all_goals exact keeps_pure _

section Deposits

variable (htot : ∀ id, Maintains cond failing gradients (total id))

include htot

theorem maintains_effectiveGradient (effective : Bindings) (read addr : NodeId) :
    Maintains cond failing gradients (effectiveGradient effective read addr) := by
  refine (htot read).bind fun _ ↦ keeps_get fun sw _ ↦ ?_
  dsimp only
  split
  · exact keeps_pure _
  · split
    · exact keeps_pure _
    · exact Maintains.onDraft ((h.descend _ _).bind fun _ ↦ h.sum _ _)

/-- Nothing is added to a gradient any more when the gradients are written. -/
theorem maintains_deposit (hw : ∀ addr v, Keeps cond failing (Build.write addr v))
    (deposits : Partners) (order : Array NodeId) :
    Maintains cond failing gradients (deposit deposits order) := by
  refine keeps_get fun sw _ ↦ ?_
  refine (Keeps.foldlM (fun effective e _ ↦ ?_) _).bind fun _ ↦ keeps_pure _
  refine (maintains_effectiveGradient h htot _ _ _).bind fun gradient ↦ ?_
  dsimp only
  refine (Maintains.onDraft (h.allows.isZero _)).bind fun _ ↦ ?_
  split
  · exact keeps_pure _
  refine (Maintains.onDraft (h.partnerAddress? _ _)).bind fun m ↦ ?_
  split
  · exact (Maintains.onDraft (hw _ _)).bind fun _ ↦ keeps_pure _
  · exact keeps_pure _

end Deposits

end Walk

end Reverse

/-- Writes and the rules for gradients keep the condition as well, and a gradient may be found
finalized. Nothing has to be asked of gradients then. -/
structure Build.Oversees (cond : Draft → Prop) (failing : Error → Draft → Prop) : Prop
    extends Build.Watches cond failing where
  write : ∀ addr v, Keeps cond failing (Build.write addr v)
  gradient : ∀ ⦃d : Draft⦄ ⦃name : String⦄ ⦃pos : Nat⦄
    ⦃rule : List NodeId → NodeId → Plan (List Contribution)⦄, cond d →
      ((d.operators.overload? name pos).bind fun o ↦ o.rules.gradient) = some rule →
        ∀ args c, Keeps cond failing (Build.carryOut (rule args c))
  final : ∀ text ⦃d⦄, cond d → failing (.gradientFinalized text) d

namespace Build.Oversees

open Reverse

variable {cond : Draft → Prop} {failing : Error → Draft → Prop}
  (h : Oversees cond failing)

include h

theorem push (tgt c : NodeId) : Maintains cond failing Accumulator.Free (Reverse.push tgt c) :=
  maintains_push h.allows c (fun _ _ _ _ _ _ _ _ ↦ trivial) fun _ _ _ ↦ h.final

theorem total (id : NodeId) : Maintains cond failing Accumulator.Free (Reverse.total id) :=
  maintains_total h.toWatches fun _ _ _ _ _ _ _ ↦ trivial

theorem seed (seeds : Partners) (order : Array NodeId) :
    Maintains cond failing Accumulator.Free (Reverse.seed seeds order) :=
  maintains_seed h.toWatches seeds fun _ _ _ _ addr _ _ _ _ ↦ h.push addr

theorem backward (id : NodeId) : Maintains cond failing Accumulator.Free (Reverse.backward id) := by
  refine maintains_backward h.toWatches fun _ n _ _ ↦ ⟨fun tgt _ ↦ h.total tgt, fun gradient ↦ ?_⟩
  refine maintains_passOn h.toWatches gradient (fun src _ ↦ h.push src)
    fun _ _ _ _ _ _ _ rule hd hru ↦ ?_
  exact (Maintains.onDraft (h.gradient hd hru _ _)).bind fun flows ↦ .forM fun flow _ ↦ h.push _ _

theorem deposit (deposits : Partners) (order : Array NodeId) :
    Maintains cond failing Accumulator.Free (Reverse.deposit deposits order) :=
  maintains_deposit h.toWatches h.total h.write deposits order

/-- An adjoint begins with arguments, which are declared in one way or another. -/
theorem adjoint {p : Draft} {ex : List String} (hdeclare : Keeps cond failing
      ((p.adjointArguments ex).forM fun (name, t, dir) ↦ do
        let _ ← Build.declareArgument name t dir : Build Unit)) :
    Maintains cond failing Accumulator.Free (Reverse.adjoint p ex) := by
  refine (Maintains.onDraft (hdeclare.bind fun _ ↦ h.copyWrites h.write p)).bind fun _ ↦ ?_
  refine keeps_get fun sw _ ↦ (h.seed _ _).bind fun _ ↦ ?_
  exact (Keeps.array_forM fun id _ ↦ h.backward id).bind fun _ ↦ h.deposit _ _

end Build.Oversees

end DiffGraph
