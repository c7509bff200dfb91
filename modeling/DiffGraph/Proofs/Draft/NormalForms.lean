import DiffGraph.Proofs.Draft.Irreducibility
import DiffGraph.Proofs.Draft.Listing
import DiffGraph.Proofs.Draft.Simplification

/-!
The normal form of drafts with the standard operators. Every expression was formed because neither
its value nor a replacement could be found, so none of the shapes that evaluation and replacement
look for is among the nodes (`Reachable.normalForm`), wherever a node came from. The tests of the
operators for zero and one, which look for such shapes, therefore find constants only.
-/

set_option autoImplicit false

namespace DiffGraph

open List Stateful Build Registry Option Precision

variable {draft : Draft} {id base : NodeId} {n node : Node} {op operator : Operator}
  {args operands : List NodeId} {values : List Value} {ts types : List String} {name : String}
  {pos position : Nat} {ov : Overload}

/-- The value is of the kind of the scalar type with the name. -/
def Value.OfScalar (v : Value) (t : String) : Prop :=
  (t = "double" ∨ t = "float" → ∃ x, v = .float x) ∧
    (t = "int" → ∃ n, v = .int n) ∧ (t = "bool" → ∃ b, v = .bool b)

section Overloads

theorem Precision.exists_float_of_ofScalar {prec : Precision} {v : Value}
    (hpc : prec = .double ∨ prec = .single) (h : v.OfScalar prec.type) : ∃ x, v = .float x := by
  rcases hpc with rfl | rfl
  · exact h.1 (.inl rfl)
  · exact h.1 (.inr rfl)

/-- A standard operator has a value on values of the kinds of its operands. -/
theorem Overload.Computes.exists_value (h : ov.Computes)
    (hacc : ov.accepts ts = true) (hvs : Forall₂ Value.OfScalar values ts) :
    ∃ rule result, ov.rules.evaluate = some rule ∧ rule values = some result := by
  unfold accepts at hacc
  cases h with
  | unary hpc _ hpat hru =>
    rw [hpat] at hacc
    obtain rfl := ArgumentPattern.accepts_unary hacc
    obtain - | ⟨hfst, - | _⟩ := hvs
    obtain ⟨x, rfl⟩ := exists_float_of_ofScalar hpc hfst
    exact ⟨_, _, hru, rfl⟩
  | binary hpc _ hpat hru =>
    rw [hpat] at hacc
    obtain rfl := ArgumentPattern.accepts_binary hacc
    obtain - | ⟨hfst, - | ⟨hsnd, - | _⟩⟩ := hvs
    obtain ⟨x, rfl⟩ := exists_float_of_ofScalar hpc hfst
    obtain ⟨y, rfl⟩ := exists_float_of_ofScalar hpc hsnd
    exact ⟨_, _, hru, rfl⟩
  | negation _ hpat hru =>
    rw [hpat] at hacc
    obtain rfl := ArgumentPattern.accepts_unary hacc
    obtain - | ⟨hfst, - | _⟩ := hvs
    obtain ⟨n, rfl⟩ := hfst.2.1 rfl
    exact ⟨_, _, hru, rfl⟩
  | integer _ hpat hru =>
    rw [hpat] at hacc
    obtain rfl := ArgumentPattern.accepts_binary hacc
    obtain - | ⟨hfst, - | ⟨hsnd, - | _⟩⟩ := hvs
    obtain ⟨m, rfl⟩ := hfst.2.1 rfl
    obtain ⟨n, rfl⟩ := hsnd.2.1 rfl
    exact ⟨_, _, hru, rfl⟩

/-- Arithmetic has rules of replacement. -/
theorem Registry.standard_replace_isSome : ∀ ov ∈ Registry.standard.overloads,
    ov.name ∈ ["+", "-", "*", "/"] → ov.rules.replace.isSome = true := by
  decide

/-- Only a product is tested for one. -/
theorem Registry.standard_oneTest : ∀ ov ∈ Registry.standard.overloads,
    ov.rules.oneTest = none ∨ ov.rules.oneTest = some Rules.bothOne ∧
      ov.name = "*" ∧ ∃ t ∈ ["double", "float", "int"], ov.patterns = [.exact t, .exact t] := by
  decide

end Overloads

namespace Draft

/-- The value of a constant. -/
def constantAt? (d : Draft) (id : NodeId) : Option Value :=
  (d.graph.node? id).bind Node.constant?

/-- Whether a node is a constant that is one. -/
def oneAt (d : Draft) (id : NodeId) : Bool := (d.constantAt? id).any Value.isOne

/-- No identity of arithmetic applies to the application. -/
def Reduced (d : Draft) : String → List NodeId → Prop
  | "+", [a, b] => d.zeroAt a = false ∧ d.zeroAt b = false
  | "-", [a, b] => d.zeroAt a = false ∧ d.zeroAt b = false ∧ a ≠ b
  | "-", [a] => ∀ n pos inner, d.graph.node? a = some n →
      n.kind ≠ .expression (.registered "-" pos) [inner]
  | "*", [a, b] => d.zeroAt a = false ∧ d.zeroAt b = false ∧ d.oneAt a = false ∧
      d.oneAt b = false
  | "/", [a, b] => d.zeroAt a = false ∧ d.oneAt b = false
  | _, _ => True

/-- The slot that the operator takes of the node is not at hand: the node was not read, and it was
not built from parts of which the slot is one. -/
def Closed (d : Draft) (op : Operator) (base : NodeId) : Prop :=
  ∀ tgt, d.graph.node? base = some tgt → (∀ addr, tgt.kind ≠ .read addr) ∧
    ∀ parts whole slot t, tgt.kind = .expression .construct parts →
      d.types.get? tgt.type = some whole → TakesSlot whole op slot t →
        parts[slot]? = none

/-- Nothing simpler could be found for the node. -/
def Normal (d : Draft) (node : Node) : Prop :=
  match node.kind with
  | .expression (.registered name _) args =>
    (∃ arg ∈ args, d.constantAt? arg = none) ∧ d.Reduced name args
  | .expression .construct args =>
    (∃ defn, d.types.get? node.type = some defn ∧
      defn.isAggregate = true) → ∃ arg ∈ args, d.constantAt? arg = none
  | .expression op args => ∀ base ∈ args, d.Closed op base
  | _ => True

section Search

variable {a b : NodeId} {perform : Request → Build NodeId} {d' later : Draft}

theorem run_done_ne_none (d' : Draft) :
    ((Plan.done (some a)).run perform).run draft ≠ (.ok none, d') := by
  intro h
  cases h

theorem run_return_some_ne_none {plan : Plan NodeId} (d' : Draft) :
    ((do return some (← plan) : Plan (Option NodeId)).run perform).run draft ≠ (.ok none, d') := by
  rw [Plan.run_bind]
  intro h
  obtain ⟨m, _, -, hret⟩ := ok_of_run_bind h
  cases hret

/-- A rule of replacement that finds nothing got past the test of a constant. -/
theorem run_unless_constant {test : Value → Bool} {m other : Plan (Option NodeId)}
    (ha : later.graph.node? a = draft.graph.node? a)
    (hf : ∀ d', (m.run perform).run draft ≠ (.ok none, d'))
    (h : (Plan.run perform (Plan.inspect a (fun n ↦ .done (n.constant?.any test)) >>=
      fun answer ↦ if answer then m else other)).run draft = (.ok none, d')) :
    (later.constantAt? a).any test = false ∧ (other.run perform).run draft = (.ok none, d') := by
  rw [Plan.run_bind] at h
  obtain ⟨answer, middle, htest, hrs⟩ := ok_of_run_bind h
  obtain ⟨n, s, hn, hdone⟩ := ok_of_run_bind htest
  obtain ⟨hn, rfl⟩ := ok_of_run_node hn
  obtain ⟨rfl, rfl⟩ := ok_of_run_pure hdone
  rw [constantAt?, ha, hn]
  split at hrs
  · exact absurd hrs (hf d')
  next hne => exact ⟨Bool.not_eq_true _ ▸ hne, hrs⟩

theorem reduced_of_replaceNeg (ha : later.graph.node? a = draft.graph.node? a)
    (h : ((Rules.replaceNeg a).run perform).run draft = (.ok none, d')) :
    later.Reduced "-" [a] := by
  intro n pos inner hn hk
  have hr : ((Plan.node a).run perform).run draft = (.ok n, draft) :=
    run_bind_of_ok (run_node_of_some (ha ▸ hn))
  rw [Rules.replaceNeg, Plan.run_bind, run_bind_of_ok hr, hk] at h
  cases h

variable (ha : later.graph.node? a = draft.graph.node? a)
  (hb : later.graph.node? b = draft.graph.node? b)

include ha hb

theorem reduced_of_replaceAdd
    (h : ((Rules.replaceAdd a b).run perform).run draft = (.ok none, d')) :
    later.Reduced "+" [a, b] := by
  obtain ⟨hsnd, h⟩ := run_unless_constant hb run_done_ne_none h
  exact ⟨(run_unless_constant ha run_done_ne_none h).1, hsnd⟩

theorem reduced_of_replaceSub
    (h : ((Rules.replaceSub a b).run perform).run draft = (.ok none, d')) :
    later.Reduced "-" [a, b] := by
  obtain ⟨hsnd, h⟩ := run_unless_constant hb run_done_ne_none h
  obtain ⟨hfst, h⟩ := run_unless_constant ha run_return_some_ne_none h
  refine ⟨hfst, hsnd, ?_⟩
  rintro rfl
  rw [if_pos rfl] at h
  exact run_return_some_ne_none _ h

theorem reduced_of_replaceMul
    (h : ((Rules.replaceMul a b).run perform).run draft = (.ok none, d')) :
    later.Reduced "*" [a, b] := by
  obtain ⟨hfst, h⟩ := run_unless_constant ha run_return_some_ne_none h
  obtain ⟨hsnd, h⟩ := run_unless_constant hb run_return_some_ne_none h
  obtain ⟨hone, h⟩ := run_unless_constant hb run_done_ne_none h
  exact ⟨hfst, hsnd, (run_unless_constant ha run_done_ne_none h).1, hone⟩

theorem reduced_of_replaceDiv
    (h : ((Rules.replaceDiv a b).run perform).run draft = (.ok none, d')) :
    later.Reduced "/" [a, b] := by
  obtain ⟨hone, h⟩ := run_unless_constant hb run_done_ne_none h
  exact ⟨(run_unless_constant ha run_done_ne_none h).1, hone⟩

end Search

section Nodes

variable {start : Draft}

/-- What a draft knows of nodes that were there before. -/
theorem Precedes.node?_eq (h : start.Precedes draft)
    (howd : ∀ operand ∈ args, start.graph.Owns operand) :
    ∀ operand ∈ args, draft.graph.node? operand = start.graph.node? operand := by
  intro operand hop
  obtain ⟨n, hn⟩ := Graph.owns_iff_node?.mp (howd operand hop)
  rw [hn, h.graph.node? hn]

theorem exists_constantsAt (hsame : ∀ arg ∈ args, draft.graph.node? arg = start.graph.node? arg)
    (hall : ∀ arg ∈ args, draft.constantAt? arg ≠ none) :
    ∃ values, (args.mapM fun id ↦ (start.graph.node? id).bind Node.constant?) = some values ∧
      Forall₂ (fun arg v ↦ draft.constantAt? arg = some v) args values := by
  induction args with
  | nil => exact ⟨[], rfl, .nil⟩
  | cons arg args ih =>
    obtain ⟨hfst, hos⟩ := forall_mem_cons.mp hsame
    obtain ⟨hc, hrs⟩ := forall_mem_cons.mp hall
    obtain ⟨v, hv⟩ := ne_none_iff_exists'.mp hc
    obtain ⟨values, hvs, hsd⟩ := ih hos hrs
    refine ⟨v :: values, ?_, .cons hv hsd⟩
    rw [constantAt?, hfst] at hv
    rw [mapM_cons, hv, hvs]
    rfl

/-- Constants of scalar types hold values of the kinds of their types. -/
def ScalarConstants (d : Draft) : Prop :=
  ∀ id n v, d.graph.node? id = some n → n.kind = .constant v →
    v.OfScalar n.type

theorem ScalarConstants.ofScalar (h : draft.ScalarConstants)
    (hvs : Forall₂ (fun arg v ↦ draft.constantAt? arg = some v) args values)
    (hts : Forall₂ draft.HoldsValue args types) :
    Forall₂ Value.OfScalar values types := by
  induction hvs generalizing types with
  | nil =>
    cases hts
    exact .nil
  | cons hv _ ih =>
    cases hts with
    | cons hfst hrs =>
      obtain ⟨n, hn, rfl, -⟩ := hfst
      rw [constantAt?, hn, bind_some] at hv
      exact .cons (h _ _ _ hn (Node.kind_of_constant? hv)) (ih hrs)

theorem Sound.exists_variable_of_registered (hs : draft.Sound)
    (hopr : draft.operators = .standard) (hconstants : draft.ScalarConstants)
    (hn : draft.graph.node? id = some n) (hk : n.kind = .expression (.registered name pos) args) :
    ∃ arg ∈ args, draft.constantAt? arg = none := by
  by_contra hno
  obtain ⟨before, hbf, -, rest, start, hsta, -, howd, hev, -⟩ := hs.expression hn hk
  have hstarted := hsta.trans hbf
  obtain ⟨values, hvs, hsd⟩ := exists_constantsAt (hstarted.node?_eq howd)
    fun arg hop heq ↦ hno ⟨arg, hop, heq⟩
  obtain ⟨ov, ts, hrv, -, hts⟩ := hs.registered hn hk
  obtain ⟨hov, hacc⟩ := overload?_of_resolve hrv
  have hm := (mem_of_resolve hrv).1
  rw [hopr] at hm
  obtain ⟨rule, result, hru, happlied⟩ := (standard_computes _ hm).exists_value hacc
    (hconstants.ofScalar hsd hts)
  have hres : start.result? n.type args values (.registered name pos) = some result := by
    rw [result?, ← hstarted.operators, hov, bind_some, hru, bind_some, happlied]
  rw [run_evaluate?_of_result hvs rfl hres] at hev
  exact run_some_ne_none hev

theorem Sound.exists_variable_of_construct (hs : draft.Sound) (hn : draft.graph.node? id = some n)
    (hk : n.kind = .expression .construct args) {defn : TypeDefinition}
    (hg : draft.types.get? n.type = some defn) (hagg : defn.isAggregate = true) :
    ∃ arg ∈ args, draft.constantAt? arg = none := by
  by_contra hno
  obtain ⟨before, hbf, -, rest, start, hsta, -, howd, hev, -⟩ := hs.expression hn hk
  have hstarted := hsta.trans hbf
  obtain ⟨values, hvs, -⟩ := exists_constantsAt (hstarted.node?_eq howd)
    fun arg hop heq ↦ hno ⟨arg, hop, heq⟩
  rw [Build.evaluate?, run_bind_of_ok (run_constants? _ _), hvs] at hev
  obtain ⟨older, s, hlk, hv⟩ := ok_of_run_bind hev
  obtain ⟨holder, rfl⟩ := ok_of_run_lookupType hlk
  obtain ⟨wider, hwd, hwn⟩ := hstarted.types.get? holder
  cases hg.symm.trans hwd
  have hsh : older.isAggregate = true := by
    unfold TypeDefinition.isAggregate at hagg ⊢
    rcases hwn.shape with hsame | ⟨_, _, _, hrecord, -⟩
    · rwa [hsame] at hagg
    · rw [hrecord]
  unfold TypeDefinition.isAggregate at hsh
  dsimp only at hv
  cases hk : older.shape with
  | scalar | abstract =>
    rw [hk] at hsh
    cases hsh
  | record | template =>
    rw [hk] at hv
    exact run_some_ne_none hv

/-- Anything but arithmetic is free of identities. -/
theorem reduced_of_not_mem (hnm : name ∉ ["+", "-", "*", "/"]) : draft.Reduced name operands := by
  unfold Reduced
  split <;> first | contradiction | trivial

theorem Sound.reduced (hs : draft.Sound) (hopr : draft.operators = .standard)
    (hn : draft.graph.node? id = some n)
    (hk : n.kind = .expression (.registered name pos) operands) :
    draft.Reduced name operands := by
  obtain ⟨before, hbf, -, rest, start, hsta, -, howd, -, hrep⟩ := hs.expression hn hk
  obtain ⟨ov, ts, hrv, -, hvs⟩ := hs.registered hn hk
  obtain ⟨hov, hacc⟩ := overload?_of_resolve hrv
  obtain ⟨hm, rfl⟩ := mem_of_resolve hrv
  have hsame := (hsta.trans hbf).node?_eq howd
  rw [hopr] at hm
  rw [(hsta.trans hbf).operators] at hov
  rw [run_replace?_registered hov] at hrep
  obtain ⟨t, hreplaces⟩ := standard_replaces hm
  unfold Overload.accepts at hacc
  have hpair (hpat : ov.patterns = [.exact t, .exact t]) : ∃ a b,
      operands = [a, b] ∧ draft.graph.node? a = start.graph.node? a ∧
        draft.graph.node? b = start.graph.node? b := by
    rw [hpat] at hacc
    obtain rfl := ArgumentPattern.accepts_binary hacc
    obtain - | ⟨-, - | ⟨-, - | _⟩⟩ := hvs
    exact ⟨_, _, rfl, hsame _ mem_cons_self, hsame _ (mem_cons_of_mem _ mem_cons_self)⟩
  cases hreplaces with
  | addition hnm hpat hru =>
    obtain ⟨a, b, rfl, ha, hb⟩ := hpair hpat
    rw [hru] at hrep
    exact hnm ▸ reduced_of_replaceAdd ha hb hrep
  | subtraction hnm hpat hru =>
    obtain ⟨a, b, rfl, ha, hb⟩ := hpair hpat
    rw [hru] at hrep
    exact hnm ▸ reduced_of_replaceSub ha hb hrep
  | multiplication hnm hpat hru =>
    obtain ⟨a, b, rfl, ha, hb⟩ := hpair hpat
    rw [hru] at hrep
    exact hnm ▸ reduced_of_replaceMul ha hb hrep
  | division hnm hpat hru =>
    obtain ⟨a, b, rfl, ha, hb⟩ := hpair hpat
    rw [hru] at hrep
    exact hnm ▸ reduced_of_replaceDiv ha hb hrep
  | negation hnm hpat hru =>
    rw [hpat] at hacc
    obtain rfl := ArgumentPattern.accepts_unary hacc
    obtain - | ⟨-, - | _⟩ := hvs
    rw [hru] at hrep
    exact hnm ▸ reduced_of_replaceNeg (hsame _ mem_cons_self) hrep
  | unary _ hno | binary _ hno =>
    refine reduced_of_not_mem fun hnm ↦ ?_
    have hsome := standard_replace_isSome ov hm hnm
    rw [hno] at hsome
    cases hsome

section

variable (hs : draft.Sound) (hn : draft.graph.node? id = some n)
  (hk : n.kind = .expression op [base]) (hopt : op.isProjection = true)

include hs hn hk hopt

/-- The slot was looked for in what it is taken of, and not found there. -/
theorem Sound.run_project {tgt : Node} (htg : draft.graph.node? base = some tgt) :
    ∃ (start before : Draft) (rest : Nat) (onAddress : NodeId → Request) (slot : Nat),
      start.graph.node? base = some tgt ∧
      (project (perform rest) onAddress n.type base slot).run start = (.ok none, before) ∧
      ∀ whole other t, draft.types.get? tgt.type = some whole →
        TakesSlot whole op other t → other = slot := by
  obtain ⟨before, hbf, hfi, rest, start, hsta, -, howd, -, hrep⟩ := hs.expression hn hk
  have hstarted := hsta.trans hbf
  rw [hstarted.node?_eq howd base mem_cons_self] at htg
  cases op with
  | registered | construct => cases hopt
  | index pos =>
    refine ⟨start, before, rest, _, pos, htg, hrep, ?_⟩
    rintro whole other t - (⟨_, hm, -⟩ | ⟨hix, -⟩)
    · cases hm
    · cases hix
      rfl
  | member field =>
    rw [replace?, run_get_bind, run_bind_of_ok (run_typeOf_of_some htg)] at hrep
    cases hsl : (start.types.get? tgt.type).bind fun defn ↦ defn.field? field with
    | none =>
      -- The type gained the field before the search, which would have changed nothing otherwise.
      rw [hsl] at hrep
      obtain rfl := (ok_of_run_pure hrep).2
      generalize n.isAddress = isAddress at hfi
      cases hfi with
      | member hf hg hfd =>
        cases htg.symm.trans hf
        rw [hg, bind_some, hfd] at hsl
        cases hsl
    | some e =>
      rw [hsl] at hrep
      refine ⟨start, before, rest, _, e.1, htg, hrep, ?_⟩
      rintro whole other t hwh (⟨_, hm, hfd⟩ | ⟨hix, -⟩)
      · cases hm
        obtain ⟨defn, hg, hen⟩ := bind_eq_some_iff.mp hsl
        obtain ⟨wider, hwd, hwn⟩ := hstarted.types.get? hg
        cases hwh.symm.trans hwd
        cases hfd.symm.trans (hwn.field? hen)
        rfl
      · cases hix

theorem Sound.closed : draft.Closed op base := by
  intro tgt htg
  obtain ⟨start, before, rest, onAddress, slot, hsta, hproject, hsl⟩ :=
    hs.run_project hn hk hopt htg
  refine ⟨fun addr hrd ↦ run_project_read_ne_none hsta hrd hproject, ?_⟩
  intro parts whole other t hps hwh htk
  rw [run_project_construct hsta hps] at hproject
  rw [hsl whole other t hwh htk]
  exact Except.ok.inj (congrArg Prod.fst hproject)

end

theorem holds_bothOne (a b : NodeId) :
    Rules.bothOne.holds ([a, b].map draft.operandView) = (draft.oneAt a && draft.oneAt b) := by
  have hfst : (Condition.oneConstant 0).eval ([a, b].map draft.operandView) =
      .ok (draft.oneAt a) := rfl
  have hsnd : (Condition.oneConstant 1).eval ([a, b].map draft.operandView) =
      .ok (draft.oneAt b) := rfl
  rw [Condition.holds, Rules.bothOne, Condition.eval, hfst, hsnd]
  cases draft.oneAt a <;> rfl

/-- The test of an operator finds nothing that is not replaced or evaluated anyway. -/
theorem Sound.not_neutral (hs : draft.Sound) (hopr : draft.operators = .standard)
    (hn : draft.graph.node? id = some n) (hk : n.kind = .expression (.registered name pos) args)
    (hvar : ∃ arg ∈ args, draft.constantAt? arg = none) (element : Neutral) :
    draft.isNeutral element id = false := by
  have hreduced := hs.reduced hopr hn hk
  obtain ⟨ov, ts, hrv, -, hvs⟩ := hs.registered hn hk
  obtain ⟨hov, hacc⟩ := overload?_of_resolve hrv
  obtain ⟨hm, rfl⟩ := mem_of_resolve hrv
  rw [hopr] at hm
  rw [isNeutral_registered element hn hk hov]
  obtain ⟨t, hreplaces⟩ := standard_replaces hm
  unfold Overload.accepts at hacc
  have hpair {t : String} (hpat : ov.patterns = [.exact t, .exact t]) : ∃ a b, args = [a, b] := by
    rw [hpat] at hacc
    obtain rfl := ArgumentPattern.accepts_binary hacc
    exact length_eq_two.mp hvs.length_eq
  cases element with
  | zero =>
    change ov.rules.zeroTest.any _ = false
    cases hreplaces with
    | addition hnm hpat _ hz =>
      obtain ⟨a, b, rfl⟩ := hpair hpat
      rw [hnm] at hreduced
      rw [hz, any_some, holds_bothZero, hreduced.1, Bool.false_and]
    | multiplication hnm hpat _ hz =>
      obtain ⟨a, b, rfl⟩ := hpair hpat
      rw [hnm] at hreduced
      rw [hz, any_some, holds_eitherZero, hreduced.1, hreduced.2.1, Bool.false_or]
    | division hnm hpat _ hz =>
      obtain ⟨a, b, rfl⟩ := hpair hpat
      rw [hnm] at hreduced
      rw [hz, any_some, holds_zeroConstant, hreduced.1]
    | negation _ hpat _ hz =>
      rw [hpat] at hacc
      obtain rfl := ArgumentPattern.accepts_unary hacc
      obtain ⟨a, rfl⟩ := length_eq_one_iff.mp hvs.length_eq
      obtain ⟨_, hop, hno⟩ := hvar
      cases mem_singleton.mp hop
      rcases hz with hz | hz
      · rw [hz, any_some, holds_zeroConstant]
        exact congrArg (Option.any Value.isZero) hno
      · rw [hz, any_none]
    | subtraction _ _ _ hz | unary _ _ hz | binary _ _ hz =>
      rw [hz, any_none]
  | one =>
    change ov.rules.oneTest.any _ = false
    rcases standard_oneTest ov hm with hno | ⟨hone, hnm, _, -, hpat⟩
    · rw [hno, any_none]
    · obtain ⟨a, b, rfl⟩ := hpair hpat
      rw [hnm] at hreduced
      rw [hone, any_some, holds_bothOne, hreduced.2.2.1, Bool.false_and]

/-- In a draft with the standard operators, whose scalar constants are of the kinds of their types,
every node is in normal form, and a node is a zero or a one if it is a constant that is. -/
theorem Reachable.normalForm (h : draft.Reachable) (hoperators : draft.operators = .standard)
    (hconstants : draft.ScalarConstants) (id : NodeId) (node : Node)
    (hnode : draft.graph.node? id = some node) :
    draft.Normal node ∧ draft.isZero id = .ok (node.constant?.any Value.isZero) ∧
      draft.isOne id = .ok (node.constant?.any Value.isOne) := by
  have hsound := h.sound
  have hneutral (element : Neutral) :
      draft.isNeutral element id = node.constant?.any element.isValue := by
    cases hkind : node.kind with
    | expression operator operands =>
      have hconstant : node.constant? = none := by rw [Node.constant?, hkind]
      cases operator with
      | registered name position =>
        rw [hconstant, Option.any_none]
        exact hsound.not_neutral hoperators hnode hkind
          (hsound.exists_variable_of_registered hoperators hconstants hnode hkind) element
      | construct | member | index =>
        simp only [isNeutral_of_node? element hnode, hkind, hconstant, Option.any_none]
    | constant | argument | read | write =>
      simp only [isNeutral_of_node? element hnode, hkind, Node.constant?, Option.any_some,
        Option.any_none]
  rw [Draft.isZero, Draft.isOne, Draft.node, hnode]
  refine ⟨?_, congrArg _ (hneutral .zero), congrArg _ (hneutral .one)⟩
  unfold Normal
  split
  next name position operands hkind =>
    exact ⟨hsound.exists_variable_of_registered hoperators hconstants hnode hkind,
      hsound.reduced hoperators hnode hkind⟩
  next operands hkind =>
    rintro ⟨definition, hget, haggregate⟩
    exact hsound.exists_variable_of_construct hnode hkind hget haggregate
  next operator operands hregistered hconstruct hkind =>
    intro base hbase
    have hoperator : operator.isProjection = true := by
      cases operator with
      | registered name position => exact absurd rfl (hregistered name position)
      | construct => exact absurd rfl hconstruct
      | member | index => rfl
    obtain ⟨_, _, _, _, rfl, -⟩ := hsound.takesSlot hnode hkind hoperator
    obtain rfl := List.mem_singleton.mp hbase
    exact hsound.closed hnode hkind hoperator
  · trivial

end Nodes

section Sample

/-- A function that subtracts twice an integer from its input. -/
def twiceDraft : Draft :=
  ((Build.intern "int" (.constant (.int 2)) false).run
    (blank.requested [.declare "n" "int" .input, .read ⟨0, 0⟩])).2.requested
      [.apply "*" [.node ⟨0, 2⟩, .node ⟨0, 1⟩], .apply "-" [.node ⟨0, 1⟩, .node ⟨0, 3⟩]]

theorem lists_twice : blank.Lists twiceDraft
    [("int", .argument "n" .input, true), ("int", .read ⟨0, 0⟩, false),
      ("int", .constant (.int 2), false),
      ("int", .expression (.registered "*" 2) [⟨0, 2⟩, ⟨0, 1⟩], false),
      ("int", .expression (.registered "-" 4) [⟨0, 1⟩, ⟨0, 3⟩], false)] [("n", ⟨0, 0⟩)] [] :=
  .of_listing (.afterAll (.of_constant (reachable_requested _) ⟨"int", .scalar .integer⟩ (by cbv) rfl) _)
    (by cbv)

theorem scalarConstants_twice : twiceDraft.ScalarConstants := by
  intro id n v hn hk
  have hls := mem_of_getElem? (lists_twice.of_node? hn).2
  simp only [Node.content, hk, mem_cons, Prod.mk.injEq, reduceCtorEq, NodeKind.constant.injEq,
    not_mem_nil, false_and, and_false, false_or, or_false] at hls
  obtain ⟨ht, rfl, -⟩ := hls
  rw [ht]
  exact ⟨fun hfloat ↦ absurd hfloat (by decide), fun _ ↦ ⟨2, rfl⟩, fun hbool ↦ absurd hbool (by decide)⟩

/-- The difference is of a read number and a product, and neither a zero nor a one. -/
theorem Reachable.normalForm_twice : ∃ node, twiceDraft.graph.node? ⟨0, 4⟩ = some node ∧
    node.kind = .expression (.registered "-" 4) [⟨0, 1⟩, ⟨0, 3⟩] ∧ twiceDraft.Normal node ∧
    twiceDraft.isZero ⟨0, 4⟩ = .ok false ∧ twiceDraft.isOne ⟨0, 4⟩ = .ok false := by
  obtain ⟨node, hnode, -, hkind, -⟩ := lists_twice.node?_blank 4 rfl
  obtain ⟨hnormal, hzero, hone⟩ := lists_twice.reachable.normalForm lists_twice.operators
    scalarConstants_twice _ node hnode
  rw [Node.constant?, hkind] at hzero hone
  exact ⟨node, hnode, hkind, hnormal, hzero, hone⟩

end Sample

end Draft

end DiffGraph
