import DiffGraph.Proofs.Draft.Terms
import DiffGraph.Proofs.Operator.Replacement

/-!
Simplification as it runs. An operator applied to terms of a type that is calculated with
(`Calculates`) is evaluated on constants, replaced by a rule, or formed, and each of these stands for
the application. It fails only if fewer replacements are allowed than it has operands
(`attains_perform_apply`): a difference may ask for a negation, and nothing else that is asked for is
replaced in turn.
-/

set_option autoImplicit false

namespace DiffGraph

open List Stateful Registry Option Graph Build TypeDefinition Precision

variable {d draft : Draft} {t type name other : String} {pos : Nat} {mayFail : Prop}
  {ids : List NodeId} {ov : Overload} {id : NodeId} {n : Node} {prec : Precision}

/-- The zero of a floating-point type is a zero. -/
theorem TypeDefinition.isZero_normalize_zero {defn : TypeDefinition} {kind : Scalar}
    (hsh : defn.shape = .scalar kind) (hk : kind.isFloat = true) :
    (defn.normalize .zero).isZero = true := by
  rw [TypeDefinition.normalize, hsh]
  cases kind with
  | double | single => rfl
  | integer | boolean => cases hk

namespace Draft

/-- Numbers of the type are calculated with: the type has a zero, and the standard operators on its
numbers give such numbers again and are replaced in the known ways. -/
structure Calculates (d : Draft) (t : String) : Prop where
  operators : d.operators = .standard
  zero : ∃ defn, d.types.get? t = some defn ∧
    (defn.normalize .zero).isZero = true
  overloads : ∀ {name : String} {ids : List NodeId} {pos : Nat} {ov : Overload},
    Registry.standard.resolve name (ids.map fun _ ↦ t) = some (pos, ov) →
      ov.Replaces t ∧ ov.result = .named t
  negation : (Registry.standard.resolve "-" [t]).isSome = true

theorem Supports.mem_operators (hsup : d.Supports prec)
    (hrv : Registry.standard.resolve name (ids.map fun _ ↦ prec.type) = some (pos, ov)) :
    ov ∈ prec.operators := by
  refine mem_operators_of_resolve hsup.standard hrv fun t ht ↦ ?_
  obtain ⟨_, -, rfl⟩ := mem_map.mp ht
  rfl

theorem Supports.calculates (hsup : d.Supports prec) : d.Calculates prec.type where
  operators := hsup.operators
  zero := by
    obtain ⟨defn, kind, hg, hsh, hk⟩ := hsup.scalar
    exact ⟨defn, hg, isZero_normalize_zero hsh hk⟩
  overloads hrv :=
    have hm := hsup.mem_operators hrv
    ⟨Precision.replaces hm, result_eq hm⟩
  negation := resolve_unary hsup.standard "-" mem_cons_self

end Draft

namespace Build

open Draft

section Replacing

variable {perform : Request → Build NodeId} {a b : NodeId}

theorem run_constantTest (hn : d.graph.node? id = some n) (test : Value → Bool) :
    ((Plan.inspect id fun n ↦ .done (n.constant?.any test)).run perform).run d =
      (.ok (n.constant?.any test), d) :=
  run_bind_of_ok (run_node_of_some hn)

/-- What a rule of replacement comes to. -/
def Replacement (t name : String) (ids : List NodeId) (d' : Draft) (m : Option NodeId) :
    Prop :=
  ∀ id, m = some id → d'.Simplifies t name ids id

theorem replacement_none (t name : String) (ids : List NodeId) (d' : Draft) :
    Replacement t name ids d' none := fun _ h ↦ by cases h

theorem replacement_some (h : d.Simplifies t name ids id) : Replacement t name ids d (some id) := by
  rintro _ ⟨⟩
  exact h

theorem attains_replaceAdd (hs : d.Sound) (ha : d.graph.Owns a) (hb : d.graph.Owns b) :
    d.Attains ((Rules.replaceAdd a b).run perform) mayFail (Replacement t "+" [a, b]) := by
  obtain ⟨first, hfst⟩ := owns_iff_node?.mp ha
  obtain ⟨second, hsnd⟩ := owns_iff_node?.mp hb
  rw [Rules.replaceAdd, Plan.run_bind]
  refine Attains.after_ok ?_ (run_constantTest hsnd Value.isZero)
  split
  next hz => exact attains_pure hs (replacement_some (.add_zero ⟨second, hsnd, hz⟩))
  rw [Plan.run_bind]
  refine Attains.after_ok ?_ (run_constantTest hfst Value.isZero)
  split
  next hz => exact attains_pure hs (replacement_some (.zero_add ⟨first, hfst, hz⟩))
  exact attains_pure hs (replacement_none _ _ _ _)

theorem attains_replaceNeg (hs : d.Sound) (ha : d.graph.Owns a) :
    d.Attains ((Rules.replaceNeg a).run perform) mayFail (Replacement t "-" [a]) := by
  obtain ⟨n, hn⟩ := owns_iff_node?.mp ha
  rw [Rules.replaceNeg, Plan.run_bind]
  refine Attains.after_ok ?_ (run_bind_of_ok (run_node_of_some hn))
  split
  next hk => exact attains_pure hs (replacement_some (.neg_neg hn hk))
  next => exact attains_pure hs (replacement_none _ _ _ _)

theorem attains_replaceDiv (hs : d.Sound) (ha : d.graph.Owns a) (hb : d.graph.Owns b) :
    d.Attains ((Rules.replaceDiv a b).run perform) mayFail (Replacement t "/" [a, b]) := by
  obtain ⟨first, hfst⟩ := owns_iff_node?.mp ha
  obtain ⟨second, hsnd⟩ := owns_iff_node?.mp hb
  rw [Rules.replaceDiv, Plan.run_bind]
  refine Attains.after_ok ?_ (run_constantTest hsnd Value.isOne)
  split
  next hone => exact attains_pure hs (replacement_some (.div_one ⟨second, hsnd, hone⟩))
  rw [Plan.run_bind]
  refine Attains.after_ok ?_ (run_constantTest hfst Value.isZero)
  split
  next hz => exact attains_pure hs (replacement_some (.zero_div ⟨first, hfst, hz⟩))
  exact attains_pure hs (replacement_none _ _ _ _)

theorem attains_request {w : Request} {result : Draft → NodeId → Prop}
    (h : d.Attains (perform w) mayFail result) :
    d.Attains ((Plan.request w).run perform) mayFail result :=
  h.of_run (Plan.run_request perform w d)

variable (rest : Nat)

theorem attains_zeroLike (hs : draft.Sound) (hcal : draft.Calculates t)
    (hv : draft.HoldsValue a t) :
    draft.Attains ((Plan.zeroLike a).run (Build.perform rest)) mayFail fun d' id ↦
      ∃ v, d'.StoresConstant id t v ∧ v.isZero = true := by
  obtain ⟨defn, hg, hz⟩ := hcal.zero
  obtain ⟨n, hn, ht, -⟩ := hv
  have hc : (Build.perform rest (.constant n.type .zero)).run draft =
      (constant n.type .zero).run draft := by
    rw [perform_eq]
    rfl
  rw [Plan.zeroLike, Plan.run_bind]
  refine Attains.after_ok ?_ (run_bind_of_ok (run_node_of_some hn))
  rw [ht] at hc ⊢
  have hattains : draft.Attains (constant t .zero) mayFail _ := attains_constant hs hg .zero
  refine attains_request ((hattains.of_run hc).mono (fun h ↦ h) fun _ _ hst ↦ ?_)
  exact ⟨_, hst, hz⟩

theorem attains_replaceMul (hs : d.Sound) (hcal : d.Calculates t)
    (ha : d.HoldsValue a t) (hb : d.graph.Owns b) :
    d.Attains ((Rules.replaceMul a b).run (Build.perform rest)) mayFail
      (Replacement t "*" [a, b]) := by
  obtain ⟨first, hfst⟩ := owns_iff_node?.mp ha.owns
  obtain ⟨second, hsnd⟩ := owns_iff_node?.mp hb
  have hlike : d.Attains ((Plan.zeroLike a).run (Build.perform rest)) mayFail _ :=
    attains_zeroLike rest hs hcal ha
  rw [Rules.replaceMul, Plan.run_bind]
  refine Attains.after_ok ?_ (run_constantTest hfst Value.isZero)
  split
  next hz =>
    rw [Plan.run_bind]
    refine hlike.bind fun hpr haf hst ↦ ?_
    obtain ⟨v, hst, hv⟩ := hst
    have hfactor : d.Stores Value.isZero a := ⟨first, hfst, hz⟩
    exact attains_pure haf (replacement_some (.zero_mul (hfactor.later hpr) hst hv))
  rw [Plan.run_bind]
  refine Attains.after_ok ?_ (run_constantTest hsnd Value.isZero)
  split
  next hz =>
    rw [Plan.run_bind]
    refine hlike.bind fun hpr haf hst ↦ ?_
    obtain ⟨v, hst, hv⟩ := hst
    have hfactor : d.Stores Value.isZero b := ⟨second, hsnd, hz⟩
    exact attains_pure haf (replacement_some (.mul_zero (hfactor.later hpr) hst hv))
  rw [Plan.run_bind]
  refine Attains.after_ok ?_ (run_constantTest hsnd Value.isOne)
  split
  next hone => exact attains_pure hs (replacement_some (.mul_one ⟨second, hsnd, hone⟩))
  rw [Plan.run_bind]
  refine Attains.after_ok ?_ (run_constantTest hfst Value.isOne)
  split
  next hone => exact attains_pure hs (replacement_some (.one_mul ⟨first, hfst, hone⟩))
  exact attains_pure hs (replacement_none _ _ _ _)

theorem attains_replaceSub (hs : d.Sound) (hcal : d.Calculates t)
    (ha : d.HoldsValue a t) (hb : d.graph.Owns b)
    (hneg : d.Attains (Build.perform rest (.apply "-" [.node b])) mayFail
      fun d' id ↦ d'.Simplifies t "-" [b] id) :
    d.Attains ((Rules.replaceSub a b).run (Build.perform rest)) mayFail
      (Replacement t "-" [a, b]) := by
  obtain ⟨first, hfst⟩ := owns_iff_node?.mp ha.owns
  obtain ⟨second, hsnd⟩ := owns_iff_node?.mp hb
  rw [Rules.replaceSub, Plan.run_bind]
  refine Attains.after_ok ?_ (run_constantTest hsnd Value.isZero)
  split
  next hz => exact attains_pure hs (replacement_some (.sub_zero ⟨second, hsnd, hz⟩))
  rw [Plan.run_bind]
  refine Attains.after_ok ?_ (run_constantTest hfst Value.isZero)
  split
  next hz =>
    rw [Plan.run_bind]
    refine (attains_request hneg).bind fun hpr haf hsimplifies ↦ ?_
    have hminuend : d.Stores Value.isZero a := ⟨first, hfst, hz⟩
    exact attains_pure haf (replacement_some (.zero_sub (hminuend.later hpr) hsimplifies))
  split
  next hsame =>
    subst hsame
    rw [Plan.run_bind]
    refine (attains_zeroLike rest hs hcal ha).bind fun _ haf hst ↦ ?_
    obtain ⟨v, hst, hv⟩ := hst
    exact attains_pure haf (replacement_some (.sub_self hst hv))
  exact attains_pure hs (replacement_none _ _ _ _)

end Replacing

section Applying

/-- Evaluation computes with the constants in the place of the operands, or finds nothing. -/
theorem run_evaluate?_registered
    (hov : draft.operators.overload? name pos = some ov) (t : String) (ids : List NodeId) :
    (evaluate? (.registered name pos) t ids).run draft = (.ok none, draft) ∨
      ∃ rule values res, ov.rules.evaluate = some rule ∧
        (ids.mapM fun id ↦ (draft.graph.node? id).bind Node.constant?) = some values ∧
        rule values = some res ∧
        (evaluate? (.registered name pos) t ids).run draft =
          (do return some (← constant t res) : Build (Option NodeId)).run draft := by
  rw [evaluate?, run_get_bind, hov, bind_some]
  split
  · exact .inl rfl
  next rule hru =>
    rw [run_bind_of_ok (run_constants? ids draft)]
    split
    · exact .inl rfl
    next res hres =>
      obtain ⟨values, hvs, hres⟩ := bind_eq_some_iff.mp hres
      exact .inr ⟨rule, values, res, hru, hvs, hres, rfl⟩

theorem run_replace?_registered (hov : d.operators.overload? name pos = some ov)
    (perform : Request → Build NodeId) (t : String) (ids : List NodeId) :
    (replace? perform (.registered name pos) t ids).run d =
      match ov.rules.replace with
      | some rule => ((rule ids).run perform).run d
      | none => (.ok none, d) := by
  rw [replace?, run_get_bind, hov, bind_some]
  cases ov.rules.replace <;> rfl

theorem exists_operand (hpat : ov.patterns = [.exact other])
    (hacc : ov.accepts (ids.map fun _ ↦ t) = true) : ∃ a, ids = [a] := by
  rw [Overload.accepts, hpat] at hacc
  have hlen := congrArg length (ArgumentPattern.accepts_unary hacc)
  rw [length_map] at hlen
  exact length_eq_one_iff.mp hlen

theorem exists_operands (hpat : ov.patterns = [.exact other, .exact other])
    (hacc : ov.accepts (ids.map fun _ ↦ t) = true) : ∃ a b, ids = [a, b] := by
  rw [Overload.accepts, hpat] at hacc
  have hlen := congrArg length (ArgumentPattern.accepts_binary hacc)
  rw [length_map] at hlen
  exact length_eq_two.mp hlen

/-- The search for a replacement fails only where a negation that it asks for does. -/
theorem attains_replace? (rest : Nat) (hs : d.Sound)
    (hcal : d.Calculates t) (hvs : ∀ id ∈ ids, d.HoldsValue id t)
    (hrv : Registry.standard.resolve name (ids.map fun _ ↦ t) = some (pos, ov))
    (hneg : ∀ {b : NodeId}, d.HoldsValue b t → name = "-" → ids.length = 2 →
      d.Attains (perform rest (.apply "-" [.node b])) mayFail
        fun d' id ↦ d'.Simplifies t "-" [b] id) :
    d.Attains (replace? (perform rest) (.registered name pos) t ids)
      mayFail (Replacement t name ids) := by
  obtain ⟨hov, hacc⟩ := overload?_of_resolve hrv
  obtain ⟨hreplaces, hnd⟩ := hcal.overloads hrv
  have hnm := (mem_of_resolve hrv).2
  rw [← hcal.operators] at hov
  have hr := run_replace?_registered hov (perform rest) t ids
  cases hreplaces with
  | addition hsymbol hpat hrep =>
    obtain ⟨a, b, rfl⟩ := exists_operands hpat hacc
    obtain rfl : name = "+" := hnm.symm.trans hsymbol
    rw [hrep] at hr
    have ha := hvs a mem_cons_self
    have hb := hvs b (mem_cons_of_mem _ mem_cons_self)
    exact (attains_replaceAdd hs ha.owns hb.owns).of_run hr
  | subtraction hsymbol hpat hrep =>
    obtain ⟨a, b, rfl⟩ := exists_operands hpat hacc
    obtain rfl : name = "-" := hnm.symm.trans hsymbol
    rw [hrep] at hr
    have ha := hvs a mem_cons_self
    have hb := hvs b (mem_cons_of_mem _ mem_cons_self)
    exact (attains_replaceSub rest hs hcal ha hb.owns (hneg hb rfl rfl)).of_run hr
  | negation hsymbol hpat hrep =>
    obtain ⟨a, rfl⟩ := exists_operand hpat hacc
    obtain rfl : name = "-" := hnm.symm.trans hsymbol
    rw [hrep] at hr
    exact (attains_replaceNeg hs (hvs a mem_cons_self).owns).of_run hr
  | multiplication hsymbol hpat hrep =>
    obtain ⟨a, b, rfl⟩ := exists_operands hpat hacc
    obtain rfl : name = "*" := hnm.symm.trans hsymbol
    rw [hrep] at hr
    have ha := hvs a mem_cons_self
    have hb := hvs b (mem_cons_of_mem _ mem_cons_self)
    exact (attains_replaceMul rest hs hcal ha hb.owns).of_run hr
  | division hsymbol hpat hrep =>
    obtain ⟨a, b, rfl⟩ := exists_operands hpat hacc
    obtain rfl : name = "/" := hnm.symm.trans hsymbol
    rw [hrep] at hr
    have ha := hvs a mem_cons_self
    have hb := hvs b (mem_cons_of_mem _ mem_cons_self)
    exact (attains_replaceDiv hs ha.owns hb.owns).of_run hr
  | unary _ hrep | binary _ hrep =>
    rw [hrep] at hr
    exact attains_of_ok hs hr (replacement_none _ _ _ _)

section

variable (hs : d.Sound) (hcal : d.Calculates t) (hvs : ∀ id ∈ ids, d.HoldsValue id t)
  (hrv : Registry.standard.resolve name (ids.map fun _ ↦ t) = some (pos, ov))

include hs hcal hvs hrv

/-- An application is evaluated, replaced or formed. -/
theorem run_finish_cases {replace : Operator → String → List NodeId → Build (Option NodeId)}
    (hrep : d.Attains (replace (.registered name pos) t ids) mayFail (Replacement t name ids)) :
    (∃ id d', (finish replace (.registered name pos) t ids false).run d =
        (.ok id, d') ∧ d'.writes = d.writes ∧ (d.Precedes d' → d'.Sound →
          d'.Simplifies t name ids id)) ∨
      mayFail ∧ ∃ error d', (finish replace (.registered name pos) t ids false).run d =
          (.error error, d') := by
  obtain ⟨defn, hg, -⟩ := hcal.zero
  have hops := holdsValues hvs
  obtain ⟨hreplaces, hnd⟩ := hcal.overloads hrv
  rw [← hcal.operators] at hrv
  rcases run_evaluate?_registered (overload?_of_resolve hrv).1 t ids with
    hno | ⟨rule, values, res, hru, hconstants, hres, hev⟩
  · exact run_finish_formed (owns_of_holdsValue hops) hno hrep fun _ haf hn ht hk ↦
        .formed hn ht (haf.isAddress_of_registered hn hk) hk
  · refine .inl ?_
    obtain ⟨id, d', hr, hgr, -, hst⟩ := (attains_constant hs hg res).exists_ok
    refine ⟨id, d', (run_finish_evaluated hev).trans hr, hgr.same_writes, fun hpr _ ↦ ?_⟩
    obtain ⟨wider, hwd, hwn⟩ := hpr.types.get? hg
    rw [← hwn.normalize] at hst
    rw [← hpr.operators] at hrv
    exact .evaluated hrv hnd hru
      ((storeConstants_of_constants? hops hconstants).later hpr) hres hwd hst

theorem attains_perform_of_replace {rest : Nat}
   
    (hrep : d.Attains (replaceWithin rest (.registered name pos) t ids) mayFail (Replacement t name ids)) :
    d.Attains (perform rest (.apply name (ids.map .node))) mayFail
      fun d' id ↦ d'.Simplifies t name ids id := by
  obtain ⟨defn, hg, -⟩ := hcal.zero
  obtain ⟨hls, rfl⟩ := mem_of_resolve hrv
  obtain ⟨hreplaces, hnd⟩ := hcal.overloads hrv
  have hres : d.HasResult (ids.map fun _ ↦ t) t ov.result := by
    rw [hnd]
    exact ⟨rfl, by rw [hg]; rfl⟩
  have hfin := run_perform_apply rest (standard_projection _ hls)
    (holdsValues hvs) (hcal.operators ▸ hrv) hres
  refine attains_of_leads (perform_leads _ _ _) hs ?_
  rw [hfin]
  exact run_finish_cases hs hcal hvs hrv hrep

end

section

variable (rest : Nat) (hs : d.Sound) (hcal : d.Calculates t) (hvs : ∀ id ∈ ids, d.HoldsValue id t)
  (hrv : Registry.standard.resolve name (ids.map fun _ ↦ t) = some (pos, ov))

include rest hs hcal hvs hrv

/-- One replacement is enough for any operator but the minus sign. -/
theorem attains_perform_once (hnm : name ≠ "-") :
    d.Attains (perform (rest + 1) (.apply name (ids.map .node))) mayFail
      fun d' id ↦ d'.Simplifies t name ids id :=
  attains_perform_of_replace hs hcal hvs hrv (attains_replace? rest hs hcal hvs hrv
      fun _ hminus _ ↦ absurd hminus hnm)

/-- An operator applied to values of the type is simplified, unless too few replacements are
allowed. -/
theorem attains_perform_apply :
    d.Attains (perform rest (.apply name (ids.map .node))) (rest < ids.length)
      fun d' id ↦ d'.Simplifies t name ids id := by
  induction rest generalizing d name ids pos ov with
  | zero =>
    refine attains_perform_of_replace hs hcal hvs hrv (.inr ⟨?_, _, _, rfl⟩)
    have hacc := (overload?_of_resolve hrv).2
    cases ids with
    | nil => cases (hcal.overloads hrv).1.eq_of_accepts hacc <;> contradiction
    | cons id ids => exact Nat.succ_pos _
  | succ rest ih =>
    refine attains_perform_of_replace hs hcal hvs hrv ?_
    refine attains_replace? rest hs hcal hvs hrv fun hb _ hlen ↦ ?_
    obtain ⟨⟨pos, ov⟩, hneg⟩ := isSome_iff_exists.mp hcal.negation
    refine (ih hs hcal (forall_mem_singleton.mpr hb) hneg).mono ?_ fun _ _ h ↦ h
    intro hfew
    rw [length_singleton] at hfew
    omega

end

end Applying

end Build

namespace Draft

section Resolving

variable {args : List NodeId}

/-- The types of terms are known. -/
theorem Term.types_eq {before : Draft} {ts : List String} (hbf : before.Precedes d)
    (hvs : Forall₂ before.HoldsValue args ts) (htms : ∀ arg ∈ args, d.Term type arg) :
    ts = args.map fun _ ↦ type := by
  induction hvs with
  | nil => rfl
  | cons hhd _ ih =>
    obtain ⟨htm, hos⟩ := forall_mem_cons.mp htms
    obtain ⟨m, hf, rfl, -⟩ := hhd
    obtain ⟨src, hsrc, rfl, -⟩ := htm.holdsValue
    rw [some.inj ((hbf.graph.node? hf).symm.trans hsrc), ih hos, map_cons]

/-- A registered operator in a term is the one that its operands call for. -/
theorem Sound.resolve_of_terms (hs : d.Sound) (hopr : d.operators = .standard)
    (hn : d.graph.node? id = some n) (hk : n.kind = .expression (.registered name pos) args)
    (htms : ∀ arg ∈ args, d.Term t arg) :
    ∃ ov, ov.name = name ∧ d.operators.overload? name pos = some ov ∧
      ov.accepts (args.map fun _ ↦ t) = true ∧
      Registry.standard.resolve name (args.map fun _ ↦ t) = some (pos, ov) := by
  obtain ⟨before, hbf, hfi, -⟩ := hs.expression hn hk
  obtain ⟨ov, ts, hrv, -, hvs⟩ := hfi.of_registered
  rw [Term.types_eq hbf hvs htms, ← hbf.operators] at hrv
  obtain ⟨hov, hacc⟩ := overload?_of_resolve hrv
  rw [hopr] at hrv
  exact ⟨ov, (mem_of_resolve hrv).2, hov, hacc, hrv⟩

end Resolving

section Neutral

section

variable (element : Neutral) (hn : d.graph.node? id = some n)

include element hn

theorem isNeutral_constant {value : Value} (hk : n.kind = .constant value) :
    d.isNeutral element id = element.isValue value := by
  simp only [isNeutral_of_node? element hn, hk]

theorem isNeutral_read {addr : NodeId} (hk : n.kind = .read addr) :
    d.isNeutral element id = false := by
  simp only [isNeutral_of_node? element hn, hk]

theorem isNeutral_registered
    {args : List NodeId} (hk : n.kind = .expression (.registered name pos) args)
    (hov : d.operators.overload? name pos = some ov) :
    d.isNeutral element id = (element.test ov.rules).any fun cond ↦
        cond.holds (args.map d.operandView) := by
  simp only [isNeutral_of_node? element hn, hk, hov, bind_some]

end

/-- Whether a node is a constant that is zero. -/
def zeroAt (d : Draft) (id : NodeId) : Bool :=
  ((d.graph.node? id).bind Node.constant?).any Value.isZero

theorem holds_zeroConstant (a : NodeId) (rest : List NodeId) :
    (Condition.zeroConstant 0).holds ((a :: rest).map d.operandView) = d.zeroAt a := rfl

theorem holds_bothZero (a b : NodeId) :
    Rules.bothZero.holds ([a, b].map d.operandView) = (d.zeroAt a && d.zeroAt b) := by
  have hfst : (Condition.zeroConstant 0).eval ([a, b].map d.operandView) = .ok (d.zeroAt a) := rfl
  have hsnd : (Condition.zeroConstant 1).eval ([a, b].map d.operandView) = .ok (d.zeroAt b) := rfl
  rw [Condition.holds, Rules.bothZero, Condition.eval, hfst, hsnd]
  cases d.zeroAt a <;> rfl

theorem holds_eitherZero (a b : NodeId) :
    Rules.eitherZero.holds ([a, b].map draft.operandView) = (draft.zeroAt a || draft.zeroAt b) := by
  have hfst : (Condition.zeroConstant 0).eval ([a, b].map draft.operandView) =
      .ok (draft.zeroAt a) := rfl
  have hsnd : (Condition.zeroConstant 1).eval ([a, b].map draft.operandView) =
      .ok (draft.zeroAt b) := rfl
  rw [Condition.holds, Rules.eitherZero, Condition.eval, hfst, hsnd]
  cases draft.zeroAt a <;> rfl

theorem denote_of_zeroAt {α : Type} [Zero α] {model : Model α} (hlaw : model.Lawful)
    (h : d.zeroAt id = true) : d.graph.denote model id = 0 := by
  obtain ⟨v, hv, hz⟩ := (any_eq_true _ _).mp h
  obtain ⟨n, hn, hv⟩ := bind_eq_some_iff.mp hv
  refine Stores.value_zero (obeys_denote _ _) hlaw ⟨n, hn, ?_⟩
  rw [hv]
  exact hz

/-- A term that passes the test for zero denotes zero. -/
theorem Term.denote_of_isNeutral {α : Type} [Zero α] {model : Model α} (htm : d.Term t id)
    (hs : d.Sound) (hcal : d.Calculates t) (hlaw : model.Lawful)
    (h : d.isNeutral .zero id = true) : d.graph.denote model id = 0 := by
  cases htm with
  | constant hst =>
    obtain ⟨n, hn, -, hk, -⟩ := hst
    rw [isNeutral_constant .zero hn hk] at h
    exact (denote_constant hn hk).trans (hlaw.constant_zero h)
  | read hn _ _ hk =>
    rw [isNeutral_read .zero hn hk] at h
    cases h
  | registered hn _ _ hk hops =>
    obtain ⟨ov, rfl, hov, hacc, hrv⟩ := hs.resolve_of_terms hcal.operators hn hk hops
    rw [isNeutral_registered .zero hn hk hov] at h
    rw [denote_registered hn hk]
    change ov.rules.zeroTest.any _ = true at h
    cases (hcal.overloads hrv).1 with
    | addition hnm hpat _ hz =>
      obtain ⟨a, b, rfl⟩ := exists_operands hpat hacc
      rw [hz, any_some, holds_bothZero, Bool.and_eq_true] at h
      rw [hnm, map_cons, map_cons, denote_of_zeroAt hlaw h.1, denote_of_zeroAt hlaw h.2]
      exact hlaw.add_zero 0
    | subtraction _ _ _ hz | unary _ _ hz | binary _ _ hz =>
      rw [hz] at h
      cases h
    | negation hnm hpat _ hz =>
      rcases hz with hz | hz
      · obtain ⟨a, rfl⟩ := exists_operand hpat hacc
        rw [hz, any_some, holds_zeroConstant] at h
        rw [hnm, map_cons, denote_of_zeroAt hlaw h]
        exact (hlaw.zero_sub 0).symm.trans (hlaw.sub_zero 0)
      · rw [hz] at h
        cases h
    | multiplication hnm hpat _ hz =>
      obtain ⟨a, b, rfl⟩ := exists_operands hpat hacc
      rw [hz, any_some, holds_eitherZero, Bool.or_eq_true] at h
      rcases h with h | h
      · rw [hnm, map_cons, denote_of_zeroAt hlaw h]
        exact hlaw.zero_mul _
      · rw [hnm, map_cons, map_cons, denote_of_zeroAt hlaw h]
        exact hlaw.mul_zero _
    | division hnm hpat _ hz =>
      obtain ⟨a, b, rfl⟩ := exists_operands hpat hacc
      rw [hz, any_some, holds_zeroConstant] at h
      rw [hnm, map_cons, denote_of_zeroAt hlaw h]
      exact hlaw.zero_div _

end Neutral

end Draft

end DiffGraph
