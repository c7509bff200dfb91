import DiffGraph.Proofs.Draft.Places
import DiffGraph.Proofs.Draft.Simplification
import DiffGraph.Proofs.Draft.Substitution

/-!
Integers. The standard operators on integers are sums, differences, products and negations, and a
term of integers has a value for every assignment of integers to the places it reads, in arithmetic
that wraps around at 64 bits. Simplification keeps the value, at the limits too
(`Counts.attains_apply`). A term in which values are substituted for arguments has the value of the
original under the assignment in which every bound argument has the value of its binding
(`attains_substitute`), also where the bindings read the arguments that are bound.
-/

set_option autoImplicit false

namespace DiffGraph

open List Stateful Registry Std.HashMap

variable {name t : String} {addr address id : NodeId} {v value : Value} {values : List Value}
  {ids args : List NodeId} {n : Node} {path : AccessPath} {ts : List String} {pos : Nat}

namespace Integers

/-- An integer constant is its value. Constants of other kinds are only known if they are neutral. -/
def constant (v : Value) : Int64 := v.integer?.getD (if v.isOne then 1 else 0)

/-- Arithmetic that wraps around. There is no division of integers; the laws of division leave its
first operand as it is. -/
def operate : String → List Int64 → Int64
  | "+", [x, y] => x + y
  | "-", [x, y] => x - y
  | "-", [x] => -x
  | "*", [x, y] => x * y
  | "/", [x, _] => x
  | _, _ => 0

def model (assignment : AccessPath → Int64) : Model Int64 := ⟨constant, assignment, operate⟩

theorem constant_zero (h : v.isZero = true) : constant v = 0 := by
  cases v with
  | float x =>
    refine if_neg fun hone ↦ ?_
    obtain rfl : x = .one := eq_of_beq hone
    cases h
  | int n => exact eq_of_beq h
  | bool b => cases h
  | zero | tuple => rfl

theorem constant_one (h : v.isOne = true) : constant v = 1 := by
  cases v with
  | float x => exact if_pos h
  | int n => exact eq_of_beq h
  | bool | zero | tuple => cases h

theorem lawful (assignment : AccessPath → Int64) : (model assignment).Lawful where
  constant_zero _ := constant_zero
  add_zero x := Int64.add_zero x
  zero_add x := Int64.zero_add x
  sub_zero x := Int64.sub_zero x
  zero_sub x := Int64.zero_sub x
  sub_self x := Int64.sub_self x
  neg_neg _ := Int64.neg_neg
  mul_zero _ := Int64.mul_zero
  zero_mul _ := Int64.zero_mul
  mul_one _ hone x := (congrArg (x * ·) (constant_one hone)).trans (Int64.mul_one x)
  one_mul _ hone x := (congrArg (· * x) (constant_one hone)).trans (Int64.one_mul x)
  div_one _ _ _ := rfl
  zero_div _ := rfl

theorem constant_of_integer? {n : Int64} (h : v.integer? = some n) : constant v = n := by
  rw [constant, h, Option.getD_some]

/-- Two integers are evaluated to what the operator makes of them. -/
theorem constant_evaluateBinary {f : Int64 → Int64 → Int64} {res : Value}
    (h : IntegerArithmetic.evaluateBinary f values = some res) :
    ∃ a b, values = [a, b] ∧ res = .int (f (constant a) (constant b)) := by
  match values with
  | [a, b] =>
    obtain ⟨x, hx, hrs⟩ := Option.bind_eq_some_iff.mp h
    obtain ⟨y, hy, hres⟩ := Option.bind_eq_some_iff.mp hrs
    refine ⟨a, b, rfl, ?_⟩
    rw [constant_of_integer? hx, constant_of_integer? hy]
    exact (Option.some.inj hres).symm

/-- Integer arithmetic evaluates constants to what it makes of their values. -/
theorem evaluate_eq {ov : Overload} (h : ov ∈ IntegerArithmetic.operators)
    {rule : List Value → Option Value} {res : Value}
    (hacc : ov.accepts ts = true) (hlen : values.length = ts.length)
    (hru : ov.rules.evaluate = some rule) (hres : rule values = some res) :
    res = .int (operate ov.name (values.map constant)) := by
  have hbinary {f : Int64 → Int64 → Int64} {name : String} {rules : Rules}
      (hnm : ∀ x y, operate name [x, y] = f x y)
      (hev : rules.evaluate = some (IntegerArithmetic.evaluateBinary f))
      (hru : rules.evaluate = some rule) : res = .int (operate name (values.map constant)) := by
    cases hev.symm.trans hru
    obtain ⟨a, b, rfl, rfl⟩ := constant_evaluateBinary hres
    exact congrArg Value.int (hnm _ _).symm
  rcases mem_cons.mp h with rfl | h
  · exact hbinary (fun _ _ ↦ rfl) rfl hru
  rcases mem_cons.mp h with rfl | h
  · exact hbinary (fun _ _ ↦ rfl) rfl hru
  rcases mem_cons.mp h with rfl | h
  · obtain rfl := ArgumentPattern.accepts_unary hacc
    obtain ⟨a, rfl⟩ := length_eq_one_iff.mp hlen
    obtain rfl := Option.some.inj hru
    obtain ⟨x, hx, hres⟩ := Option.bind_eq_some_iff.mp hres
    obtain rfl := Option.some.inj hres
    show Value.int (-x) = .int (-constant a)
    rw [constant_of_integer? hx]
  · obtain rfl := mem_singleton.mp h
    exact hbinary (fun _ _ ↦ rfl) rfl hru

theorem resolve_isSome : ∀ e ∈ [("+", 2), ("-", 2), ("-", 1), ("*", 2)],
    (Registry.standard.resolve e.1 (replicate e.2 "int")).isSome = true := by
  decide

end Integers

namespace Draft

/-- Integers are calculated with. -/
structure Counts (d : Draft) : Prop where
  operators : d.operators = .standard
  scalar : ∃ defn, d.types.get? "int" = some defn ∧
    defn.shape = .scalar .integer

section Counting

variable {d newer : Draft}

theorem Counts.later (h : d.Precedes newer) (hct : d.Counts) : newer.Counts := by
  obtain ⟨defn, hg, hsh⟩ := hct.scalar
  obtain ⟨wider, hwd, hwn⟩ := h.types.get? hg
  exact ⟨h.operators.trans hct.operators, wider, hwd, hwn.scalar_shape.mpr hsh⟩

theorem Counts.calculates (hct : d.Counts) : d.Calculates "int" where
  operators := hct.operators
  zero := by
    obtain ⟨defn, hg, hsh⟩ := hct.scalar
    refine ⟨defn, hg, ?_⟩
    rw [TypeDefinition.normalize, hsh]
    rfl
  overloads hrv := by
    have hm := IntegerArithmetic.mem_operators_of_resolve hrv fun t ht ↦ by
      obtain ⟨_, -, rfl⟩ := mem_map.mp ht
      rfl
    exact ⟨IntegerArithmetic.replaces hm, IntegerArithmetic.result_eq hm⟩
  negation := by decide

theorem StoreConstants.length_eq (h : d.StoreConstants ids ts values) :
    values.length = ts.length := by
  induction h with
  | nil => rfl
  | cons _ _ ih => exact congrArg Nat.succ ih

/-- What is evaluated has the value that it is evaluated to. -/
theorem Counts.exact (hct : d.Counts) (assignment : AccessPath → Int64)
    (names : List String) : (Integers.model assignment).Exact d "int" names := by
  intro name pos ov ids id ts values rule res defn _ hrv hnd hru hvs hres hg _
  obtain ⟨m, hf, hsh⟩ := hct.scalar
  cases hg.symm.trans hf
  rw [hct.operators] at hrv
  obtain ⟨hm, hnm⟩ := mem_of_resolve hrv
  have hacc := (overload?_of_resolve hrv).2
  have hinteger : ov ∈ IntegerArithmetic.operators := by
    refine (IntegerArithmetic.mem_or_result hm).resolve_right fun ho ↦ ?_
    obtain ⟨t, hne, ho⟩ := ho
    exact hne (ResultType.named.inj (ho.symm.trans hnd))
  rw [Integers.evaluate_eq hinteger hacc hvs.length_eq hru hres, hnm, TypeDefinition.normalize, hsh]
  rfl

/-- The operands of integer arithmetic are integers. -/
theorem Sound.operands_of_integer (hs : d.Sound) (hopr : d.operators = .standard)
    (hn : d.graph.node? id = some n) (ht : n.type = "int")
    (hk : n.kind = .expression (.registered name pos) args) :
    ∀ operand ∈ args, d.HoldsValue operand "int" := by
  obtain ⟨ov, ts, hrv, hres, hvs⟩ := hs.registered hn hk
  rw [hopr] at hrv
  rcases IntegerArithmetic.mem_or_result (mem_of_resolve hrv).1 with
    hm | ⟨t, hne, hnd⟩
  · have hacc := (overload?_of_resolve hrv).2
    rcases (IntegerArithmetic.replaces hm).eq_of_accepts hacc with rfl | rfl
    · obtain - | ⟨ha, hno⟩ := hvs
      cases hno
      exact forall_mem_singleton.mpr ha
    · obtain - | ⟨ha, - | ⟨hb, hno⟩⟩ := hvs
      cases hno
      exact forall_mem_cons.mpr ⟨ha, forall_mem_singleton.mpr hb⟩
  · rw [hnd, ht] at hres
    exact absurd hres.1 hne

/-- What stands for an application to integers is an integer. -/
theorem Simplifies.holdsInteger (h : d.Simplifies "int" name ids id) (hs : d.Sound)
    (hopr : d.operators = .standard)
    (hvs : ∀ arg ∈ ids, d.HoldsValue arg "int") : d.HoldsValue id "int" := by
  refine h.inherits (fun hst ↦ hst.holdsValue) (fun hn ht haddr _ _ ↦ ⟨_, hn, ht, haddr⟩)
    (fun _ _ _ _ _ hn hk hv ↦ ?_) hvs
  obtain ⟨m, hf, ht, -⟩ := hv
  cases hn.symm.trans hf
  exact hs.operands_of_integer hopr hn ht hk _ mem_cons_self

/-- An operator applied to integers gives an integer of the value that the operator makes of
theirs. -/
theorem Counts.attains_apply (hct : d.Counts) (hs : d.Sound)
    (hvs : ∀ id ∈ ids, d.HoldsValue id "int")
    (hrv : (Registry.standard.resolve name (ids.map fun _ ↦ "int")).isSome = true) :
    d.Attains (Build.apply name (ids.map .node)) (d.options.replacementLimit < 2)
      fun d' id ↦ d'.HoldsValue id "int" ∧ ((∀ arg ∈ ids, d.Term "int" arg) → d'.Term "int" id) ∧
        ∀ assignment valuation, d'.graph.Obeys (Integers.model assignment) valuation →
          valuation id = Integers.operate name (ids.map valuation) := by
  obtain ⟨⟨pos, ov⟩, hrv⟩ := Option.isSome_iff_exists.mp hrv
  have hlen : ids.length ≤ 2 := by
    have hacc := (overload?_of_resolve hrv).2
    have hshort := (hct.calculates.overloads hrv).1.eq_of_accepts hacc
    rw [← length_map (fun _ : NodeId ↦ "int")]
    rcases hshort with h | h <;> rw [h] <;> decide
  have hattains := Build.attains_perform_apply d.options.replacementLimit hs hct.calculates hvs hrv
  refine Attains.of_run (hattains.mono (fun hfew ↦ hfew.trans_le hlen) ?_) rfl
  intro d' id hpr haf hsimplifies
  have hct := hct.later hpr
  refine ⟨hsimplifies.holdsInteger haf hct.operators fun arg hop ↦
    (hvs arg hop).later hpr, fun htms ↦ hsimplifies.term fun arg hop ↦ (htms arg hop).later hpr,
    fun assignment valuation hob ↦ ?_⟩
  exact hsimplifies.value hob (Integers.lawful assignment) (hct.exact assignment [name])
    (mem_singleton_self name)

end Counting

/-- Arguments that hold integers are bound to integers. -/
def BindsIntegers (d : Draft) (bs : Bindings) : Prop :=
  ∀ ⦃addr v : NodeId⦄, bs[addr]? = some v →
    (∃ name, d.Locates addr "int" ⟨name, []⟩) ∧ d.HoldsValue v "int"

/-- The assignment in which every bound argument has the value of its binding. -/
def rebound (d : Draft) (bs : Bindings) (valuation : NodeId → Int64)
    (assignment : AccessPath → Int64) (path : AccessPath) : Int64 :=
  if path.slots = [] then
    ((d.arguments.lookup path.argument).bind fun addr ↦ bs[addr]?).elim
      (assignment path) valuation
  else assignment path

section Substitution

variable {start now : Draft} {bs rebuilt : Bindings} {part res result : NodeId}

/-- What a part has become has the value that the part has under the new assignment. -/
structure Substitutes (start now : Draft) (bs : Bindings) (part res : NodeId) : Prop where
  holds : now.HoldsValue res "int"
  value : ∀ assignment valuation, now.graph.Obeys (Integers.model assignment) valuation →
    valuation res =
      start.graph.denote (Integers.model (start.rebound bs valuation assignment)) part

theorem Substitutes.later {newer : Draft} (h : start.Substitutes now bs part result)
    (hl : now.Precedes newer) : start.Substitutes newer bs part result :=
  ⟨h.holds.later hl, fun assignment valuation hob ↦
    h.value assignment valuation (hob.earlier hl.graph)⟩

/-- A place that is bound has the value of its binding. -/
theorem rebound_of_locates (hs : start.Sound) (hpl : start.Locates addr t path)
    (hslots : path.slots = []) (valuation : NodeId → Int64) (assignment : AccessPath → Int64) :
    start.rebound bs valuation assignment path = bs[addr]?.elim (assignment path) valuation := by
  cases hpl with
  | argument hn _ hk =>
    rw [rebound, if_pos hslots, hs.lookup_iff.mpr ⟨_, _, hn, hk⟩, Option.bind_some]
  | part => cases hslots

/-- A place that is not bound keeps its value. -/
theorem rebound_of_unbound (hs : start.Sound) (hpl : start.Locates addr t path)
    (hunbound : bs[addr]? = none) (valuation : NodeId → Int64) (assignment : AccessPath → Int64) :
    start.rebound bs valuation assignment path = assignment path := by
  by_cases hslots : path.slots = []
  · rw [rebound_of_locates hs hpl hslots, hunbound, Option.elim_none]
  · exact if_neg hslots

/-- A place that holds an integer is bound by itself or not at all: what it is a part of does not
hold an integer. -/
theorem BindsIntegers.run_boundValue? (hbind : start.BindsIntegers bs)
    (hct : start.Counts) (hl : start.Precedes now) (hpl : start.Locates addr t path) :
    (Build.boundValue? bs addr).run now = (.ok bs[addr]?, now) := by
  obtain ⟨around, hlineage⟩ := Graph.lineage_eq_cons hpl.owns
  have hfree : ∀ outer ∈ around, bs.contains outer = false := by
    intro outer houter
    rw [contains_eq_isSome_getElem?, Option.isSome_eq_false_iff,
      Option.isNone_iff_eq_none, Option.eq_none_iff_forall_ne_some]
    intro v hbd
    obtain ⟨⟨name, hnm⟩, -⟩ := hbind hbd
    obtain ⟨tgt, op, slot, htg, hsl⟩ := hpl.slotType?_of_mem_tail (by rw [hlineage]; exact houter)
    obtain ⟨m, hf, ht, -⟩ := hnm.node?
    cases htg.symm.trans hf
    obtain ⟨defn, hg, hsh⟩ := hct.scalar
    rw [ht, TypeTable.slotType?_scalar hg hsh] at hsl
    cases hsl
  have hno : around.findIdx? (fun outer ↦ bs.contains outer) = none :=
    findIdx?_eq_none_iff.mpr hfree
  rw [Build.boundValue?, run_get_bind]
  dsimp only
  rw [Graph.lineage_extends hl.graph hpl.owns, hlineage, findIdx?_cons, hno]
  cases hbd : bs[addr]? with
  | some v =>
    rw [if_pos (contains_eq_isSome_getElem?.trans (by rw [hbd]; rfl))]
    simp only [getElem?_cons_zero, Option.bind_some, hbd]
    rfl
  | none =>
    rw [if_neg (by rw [contains_eq_isSome_getElem?, hbd]; exact Bool.false_ne_true)]
    rfl

/-- A read of a bound argument becomes its binding, and other reads stay. -/
theorem attains_substituteNode_read {mayFail : Prop} (hsta : start.Sound) (hct : start.Counts)
    (hbind : start.BindsIntegers bs) (hnow : now.Sound) (hl : start.Precedes now)
    (hn : start.graph.node? part = some n) (ht : n.type = "int") (hk : n.kind = .read addr) :
    now.Attains (Build.substituteNode bs rebuilt part) mayFail fun d' result ↦
      start.Substitutes d' bs part result := by
  obtain ⟨haddr, tgt, htg, hpl, -⟩ := hsta.read hn hk
  obtain ⟨path, hpl⟩ := hsta.exists_place htg hpl
  refine attains_of_ok hnow
    (run_substituteNode_read (hl.graph.node? hn) hk (hbind.run_boundValue? hct hl hpl)) ?_
  cases hbd : bs[addr]? with
  | some v =>
    obtain ⟨⟨name, hnm⟩, hv⟩ := hbind hbd
    refine ⟨hv.later hl, fun assignment valuation hob ↦ ?_⟩
    rw [Graph.denote_read hn hk hnm.accessPath?, Option.getD_some]
    refine .symm ((rebound_of_locates hsta hnm rfl valuation assignment).trans ?_)
    rw [hbd, Option.elim_some]
  | none =>
    refine ⟨⟨n, hl.graph.node? hn, ht, haddr⟩, fun assignment valuation hob ↦ ?_⟩
    rw [Graph.denote_read hn hk hpl.accessPath?]
    exact (hob.read (hl.graph.node? hn) hk (hpl.later hl).accessPath?).trans
      (rebound_of_unbound hsta hpl hbd valuation assignment).symm

/-- Every part that is done has become what it should. -/
def SubstitutesAll (start now : Draft) (bs rebuilt : Bindings) (done : List NodeId) : Prop :=
  ∀ part ∈ done, ∃ res, rebuilt[part]? = some res ∧ start.Substitutes now bs part res

/-- An application becomes the application to what its operands have become. -/
theorem attains_substituteNode_registered (hsta : start.Sound) (hct : start.Counts)
    (hnow : now.Sound) (hl : start.Precedes now) (hn : start.graph.node? part = some n)
    (ht : n.type = "int") (hk : n.kind = .expression (.registered name pos) args)
    (htms : ∀ arg ∈ args, start.Term "int" arg) (hdone : start.SubstitutesAll now bs rebuilt args) :
    now.Attains (Build.substituteNode bs rebuilt part) (start.options.replacementLimit < 2)
      fun d' result ↦ start.Substitutes d' bs part result := by
  have haddr := hsta.isAddress_of_registered hn hk
  have hreplaced : ∀ arg ∈ args, start.Substitutes now bs arg (rebuilt.getD arg arg) := by
    intro arg hop
    obtain ⟨result, hres, hsubstitutes⟩ := hdone arg hop
    rw [getD_eq_getD_getElem?, hres]
    exact hsubstitutes
  have hvs {d' : Draft} (haf : now.Precedes d') (assignment : AccessPath → Int64)
      (valuation : NodeId → Int64)
      (hob : d'.graph.Obeys (Integers.model assignment) valuation) :
      Integers.operate name ((args.map fun arg ↦ rebuilt.getD arg arg).map valuation) =
        start.graph.denote (Integers.model (start.rebound bs valuation assignment)) part := by
    rw [Graph.denote_registered hn hk, map_map]
    refine congrArg (Integers.operate name) (map_congr_left fun arg hop ↦ ?_)
    exact ((hreplaced arg hop).later haf).value assignment valuation hob
  rw [Build.substituteNode]
  refine Attains.after_ok ?_ (Build.run_node_of_some (hl.graph.node? hn))
  rw [hk]
  dsimp only
  rw [haddr, if_neg Bool.false_ne_true]
  split
  next hsame =>
    refine attains_pure hnow ⟨⟨n, hl.graph.node? hn, ht, haddr⟩, fun assignment valuation hob ↦ ?_⟩
    rw [← hvs (.refl now) assignment valuation hob, hsame]
    exact hob.registered (hl.graph.node? hn) hk
  next =>
    obtain ⟨ov, -, -, -, hrv⟩ := hsta.resolve_of_terms hct.operators hn hk htms
    have hrv : (Registry.standard.resolve name
        ((args.map fun arg ↦ rebuilt.getD arg arg).map fun _ ↦ "int")).isSome = true := by
      rw [map_map]
      exact Option.isSome_iff_exists.mpr ⟨_, hrv⟩
    have happly := (hct.later hl).attains_apply hnow
      (forall_mem_map.mpr fun arg hop ↦ (hreplaced arg hop).holds) hrv
    rw [hl.options] at happly
    refine happly.mono (fun h ↦ h) fun haf _ hres ↦ ?_
    obtain ⟨hholds, -, hv⟩ := hres
    exact ⟨hholds, fun assignment valuation hob ↦
      (hv assignment valuation hob).trans (hvs haf assignment valuation hob)⟩

theorem attains_substituteNode (hsta : start.Sound) (hct : start.Counts)
    (hbind : start.BindsIntegers bs) (hnow : now.Sound) (hl : start.Precedes now)
    (htm : start.Term "int" part)
    (hprepared : start.Prepares now (fun now ↦ start.Substitutes now bs) rebuilt part) :
    now.Attains (Build.substituteNode bs rebuilt part) (start.options.replacementLimit < 2)
      fun d' result ↦ start.Substitutes d' bs part result := by
  cases htm with
  | constant hst =>
    obtain ⟨n, hn, ht, hk, haddr⟩ := hst
    have hla := hl.graph.node? hn
    refine attains_of_ok hnow (a := part) ?_ ⟨⟨n, hla, ht, haddr⟩, ?_⟩
    · rw [Build.substituteNode, run_bind_of_ok (Build.run_node_of_some hla), hk]
      rfl
    · intro assignment valuation hob
      rw [Graph.denote_constant hn hk]
      exact hob.constant hla hk
  | read hn ht _ hk =>
    exact attains_substituteNode_read hsta hct hbind hnow hl hn ht hk
  | registered hn ht haddr hk htms =>
    refine attains_substituteNode_registered hsta hct hnow hl hn ht hk htms ?_
    have hall := hprepared _ hn (Node.isComputed_of_expression hk haddr)
    rwa [Node.operands, hk] at hall

/-- All parts of a term are rebuilt in turn. -/
theorem exists_run_substitute (hsta : start.Sound) (hct : start.Counts)
    (hlim : 2 ≤ start.options.replacementLimit) (hbind : start.BindsIntegers bs)
    (htm : start.Term "int" id) :
    ∃ result d', (Build.substitute bs id).run start = (.ok result, d') ∧
      start.Precedes d' ∧ d'.Sound ∧ start.Substitutes d' bs id result := by
  refine hsta.run_substitute_of_parts htm.holdsValue.owns (fun _ _ _ _ hl hres ↦ hres.later hl) ?_
  intro now rebuilt part hl hnow hp hprepared
  rcases attains_substituteNode hsta hct hbind hnow hl (htm.of_mem_closure hp)
    hprepared with ⟨result, d', hr, hgr, hrs⟩ | ⟨hfew, -⟩
  · exact ⟨result, d', hr, hgr.toPrecedes, hrs⟩
  · exact absurd hlim (Nat.not_le.mpr hfew)

/-- A function of one integer. -/
theorem exists_count : ∃ d : Draft, d.Reachable ∧ blank.Lists d
    [("int", .argument "n" .input, true), ("int", .read ⟨0, 0⟩, false)] [("n", ⟨0, 0⟩)] [] :=
  ⟨blank.requested [.declare "n" "int" .input, .read ⟨0, 0⟩], reachable_requested _,
    .of_listing (reachable_requested _) (by cbv)⟩

/-- Integers keep their meaning: an operator applied to integers has the value that it makes of
theirs, and a term in which arguments are replaced has the value of the term under the assignment
in which they have the values of what replaces them. What no term of integers says anything about,
such as a number that was rounded, has any value. -/
theorem Reachable.apply_substitute_integers {draft : Draft} (hreachable : draft.Reachable)
    (hcounts : draft.Counts) (hlimit : 2 ≤ draft.options.replacementLimit) :
    (∀ (name : String) (ids : List NodeId),
      (name, ids.length) ∈ [("+", 2), ("-", 2), ("-", 1), ("*", 2)] →
      (∀ id ∈ ids, draft.HoldsValue id "int") →
      ∃ id after, (Build.apply name (ids.map .node)).run draft = (.ok id, after) ∧
        ((∀ operand ∈ ids, draft.Term "int" operand) → after.Term "int" id) ∧
        ∀ assignment valuation, after.graph.Obeys (Integers.model assignment) valuation →
          valuation id = Integers.operate name (ids.map valuation)) ∧
    ∀ (bindings : Bindings) (id : NodeId), draft.BindsIntegers bindings → draft.Term "int" id →
      ∃ result after, (Build.substitute bindings id).run draft = (.ok result, after) ∧
        ∀ assignment valuation, after.graph.Obeys (Integers.model assignment) valuation →
          valuation result =
            draft.graph.denote (Integers.model (draft.rebound bindings valuation assignment)) id := by
  constructor
  · intro name ids hname hvalues
    have hresolve : (Registry.standard.resolve name (ids.map fun _ ↦ "int")).isSome = true := by
      rw [List.map_const']
      exact Integers.resolve_isSome _ hname
    rcases hcounts.attains_apply hreachable.sound hvalues hresolve with
      ⟨id, after, hrun, -, -, -, hvalue⟩ | ⟨hfew, -⟩
    · exact ⟨id, after, hrun, hvalue⟩
    · exact absurd hlimit (Nat.not_le.mpr hfew)
  · intro bindings id hbindings hterm
    obtain ⟨result, after, hrun, -, -, hsubstitutes⟩ :=
      exists_run_substitute hreachable.sound hcounts hlimit hbindings hterm
    exact ⟨result, after, hrun, hsubstitutes.value⟩

/-- The negation of the integer with its own negation in the place of the integer. -/
theorem apply_substitute_integers_negation :
    ∃ (draft negating after : Draft) (negated result : NodeId), draft.Reachable ∧
      (Build.apply "-" [.node ⟨0, 1⟩]).run draft = (.ok negated, negating) ∧
      (Build.substitute ((∅ : Bindings).insert ⟨0, 0⟩ negated) negated).run negating =
        (.ok result, after) ∧
      ∀ assignment valuation, after.graph.Obeys (Integers.model assignment) valuation →
        valuation result = -(-assignment ⟨"n", []⟩) := by
  obtain ⟨draft, hreachable, hlists⟩ := exists_count
  obtain ⟨n, hn, hntype, hnkind, hnaddress⟩ := hlists.node?_blank 0 rfl
  obtain ⟨r, hr, hrtype, hrkind, hraddress⟩ := hlists.node?_blank 1 rfl
  have hcounts : draft.Counts := ⟨hlists.operators, by rw [hlists.types]; exact ⟨_, rfl, rfl⟩⟩
  have hlimit : 2 ≤ draft.options.replacementLimit := by rw [hlists.options]; decide
  have hplace : draft.Locates ⟨0, 0⟩ "int" ⟨"n", []⟩ := hntype ▸ .argument hn hnaddress hnkind
  have hread : draft.Term "int" ⟨0, 1⟩ := .read hr hrtype hraddress hrkind
  obtain ⟨negated, negating, hrun, hterm, hnegated⟩ :=
    (hreachable.apply_substitute_integers hcounts hlimit).1 "-" [⟨0, 1⟩] (by decide)
      (List.forall_mem_singleton.mpr hread.holdsValue)
  have hterm := hterm (List.forall_mem_singleton.mpr hread)
  have hafter : draft.after (.request (.apply "-" [.node ⟨0, 1⟩])) = negating :=
    congrArg Prod.snd hrun
  have hlater : draft.Precedes negating :=
    hafter ▸ (after_continues draft _ hreachable.sound hreachable.derived).1.precedes
  have hnegating : negating.Reachable := hafter ▸ hreachable.operate _
  have hbindings : negating.BindsIntegers ((∅ : Bindings).insert ⟨0, 0⟩ negated) := by
    intro address value hbound
    rw [Std.HashMap.getElem?_insert] at hbound
    split at hbound
    next heq =>
      obtain rfl := eq_of_beq heq
      obtain rfl := Option.some.inj hbound
      exact ⟨⟨"n", hplace.later hlater⟩, hterm.holdsValue⟩
    next => simp at hbound
  obtain ⟨result, after, hsubstitute, hresult⟩ :=
    (hnegating.apply_substitute_integers (hcounts.later hlater) (hlater.options ▸ hlimit)).2 _
      negated hbindings hterm
  refine ⟨draft, negating, after, negated, result, hreachable, hrun, hsubstitute, ?_⟩
  intro assignment valuation hobeys
  have hobeyed := hobeys.earlier ((Build.enlarges (·.substitute _ _) _).precedes hsubstitute
    hnegating.sound).graph
  have hpath := (hplace.later hlater).accessPath?
  have hvalue : valuation negated = -assignment ⟨"n", []⟩ :=
    (hnegated assignment valuation hobeyed).trans
      (congrArg Neg.neg (hobeyed.read (hlater.graph.node? hr) hrkind hpath))
  rw [hresult assignment valuation hobeys, hnegated _ _ (Graph.obeys_denote _ _)]
  refine congrArg Neg.neg ?_
  rw [Graph.denote_read (hlater.graph.node? hr) hrkind hpath]
  refine (rebound_of_locates hnegating.sound (hplace.later hlater) rfl valuation
    assignment).trans ?_
  rw [Std.HashMap.getElem?_insert_self, Option.elim_some, hvalue]

end Substitution

end Draft

end DiffGraph
