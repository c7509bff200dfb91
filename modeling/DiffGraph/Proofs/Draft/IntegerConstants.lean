import DiffGraph.Proofs.Draft.Integers
import DiffGraph.Proofs.Draft.Valuation

/-!
Constants of integers. An integer is declared with 32 bits, and a constant of it is computed with 64.
Every term of integer literals comes to a constant, whatever draft it is built in
(`IntegerTerm.attains_build`). Its value agrees with arithmetic of 32 bits up to multiples of 2³², and
is the one that 32 bits give exactly if it is in their range. Results that leave the range are stored
as they are: from literals in the range, all constants on the way are in the range if and only if the
exact results are (`IntegerTerm.forall_parts_narrow_iff`).
-/

set_option autoImplicit false

namespace DiffGraph

open List Stateful Option Registry

variable {n : Int64}

inductive IntegerOperator where
  | add
  | subtract
  | multiply

namespace IntegerOperator

def name : IntegerOperator → String
  | add => "+"
  | subtract => "-"
  | multiply => "*"

def combine {α : Type} [Add α] [Sub α] [Mul α] : IntegerOperator → α → α → α
  | add, x, y => x + y
  | subtract, x, y => x - y
  | multiply, x, y => x * y

end IntegerOperator

/-- A term over integer literals. -/
inductive IntegerTerm where
  | literal (n : Int64)
  | negate (term : IntegerTerm)
  | apply (op : IntegerOperator) (left right : IntegerTerm)

/-- The range of 32 bits. -/
def Narrow (n : Int) : Prop := -2 ^ 31 ≤ n ∧ n < 2 ^ 31

/-- Only integers in the range are what 32 bits hold of them. -/
theorem toInt_toInt32_eq_iff (n : Int64) : n.toInt32.toInt = n.toInt ↔ Narrow n.toInt := by
  constructor
  · intro h
    rw [← h]
    exact ⟨n.toInt32.le_toInt, n.toInt32.toInt_lt⟩
  · intro ⟨hlower, hupper⟩
    rw [Int64.toInt_toInt32]
    exact Int.bmod_eq_of_le (by omega) (by omega)

/-- Negation does not leave 64 bits. -/
theorem Narrow.toInt_neg (h : Narrow n.toInt) : (-n).toInt = -n.toInt := by
  obtain ⟨hlower, hupper⟩ := h
  rw [Int64.toInt_neg]
  exact Int.bmod_eq_of_le (by omega) (by omega)

/-- Nor do the results of the other operators. -/
theorem Narrow.toInt_combine {m : Int64} (hm : Narrow m.toInt) (hn : Narrow n.toInt)
    (op : IntegerOperator) : (op.combine m n).toInt = op.combine m.toInt n.toInt := by
  obtain ⟨hml, hmu⟩ := hm
  obtain ⟨hnl, hnu⟩ := hn
  cases op with
  | add =>
    refine (Int64.toInt_add m n).trans (Int.bmod_eq_of_le ?_ ?_)
    · omega
    · omega
  | subtract =>
    refine (Int64.toInt_sub m n).trans (Int.bmod_eq_of_le ?_ ?_)
    · omega
    · omega
  | multiply =>
    have hproduct : (m.toInt * n.toInt).natAbs ≤ 2 ^ 31 * 2 ^ 31 := by
      rw [Int.natAbs_mul]
      exact Nat.mul_le_mul (by omega) (by omega)
    refine (Int64.toInt_mul m n).trans (Int.bmod_eq_of_le ?_ ?_)
    · omega
    · omega

namespace IntegerTerm

/-- Each operator is applied to what its operands have come to. -/
def build : IntegerTerm → Build NodeId
  | literal n => Build.constant "int" (.int n)
  | negate term => do
    Build.apply "-" ([← term.build].map .node)
  | apply op left right => do
    let first ← left.build
    let second ← right.build
    Build.apply op.name ([first, second].map .node)

/-- The value of a term in an arithmetic, in which literals have values. -/
def value {α : Type} [Add α] [Sub α] [Mul α] [Neg α] (literals : Int64 → α) : IntegerTerm → α
  | literal n => literals n
  | negate term => -term.value literals
  | apply op left right => op.combine (left.value literals) (right.value literals)

/-- A term and the terms it is made of. -/
def parts : IntegerTerm → List IntegerTerm
  | literal n => [literal n]
  | negate term => negate term :: term.parts
  | apply op left right => apply op left right :: (left.parts ++ right.parts)

theorem self_mem_parts (term : IntegerTerm) : term ∈ term.parts := by
  cases term <;> exact mem_cons_self

/-- To drop the upper bits at the end is to drop them everywhere. -/
theorem toInt32_value (term : IntegerTerm) : (term.value id).toInt32 = term.value Int64.toInt32 := by
  induction term with
  | literal n => rfl
  | negate term ih =>
    rw [value, Int64.toInt32_neg, ih]
    rfl
  | apply op left right ihleft ihright =>
    rw [value, value, ← ihleft, ← ihright]
    cases op with
    | add => exact Int64.toInt32_add _ _
    | subtract => exact Int64.toInt32_sub _ _
    | multiply => exact Int64.toInt32_mul _ _

/-- As long as its parts are in the range, what a term has come to is exact. -/
theorem toInt_value {term : IntegerTerm} (h : ∀ part ∈ term.parts, Narrow (part.value Int64.toInt)) :
    (term.value id).toInt = term.value Int64.toInt := by
  induction term with
  | literal n => rfl
  | negate term ih =>
    obtain ⟨-, hparts⟩ := forall_mem_cons.mp h
    have hexact := ih hparts
    have hnarrow := hparts term term.self_mem_parts
    rw [value, value, ← hexact]
    exact (hexact ▸ hnarrow : Narrow (term.value id).toInt).toInt_neg
  | apply op left right ihleft ihright =>
    obtain ⟨-, hparts⟩ := forall_mem_cons.mp h
    obtain ⟨hleft, hright⟩ := forall_mem_append.mp hparts
    have hl := ihleft hleft
    have hr := ihright hright
    rw [value, value, ← hl, ← hr]
    exact Narrow.toInt_combine (hl ▸ hleft left left.self_mem_parts)
      (hr ▸ hright right right.self_mem_parts) op

/-- The first result out of the range is exact, and so it is out of the range of 32 bits too. -/
theorem forall_parts_narrow_iff (term : IntegerTerm) :
    (∀ part ∈ term.parts, Narrow (part.value id).toInt) ↔
      ∀ part ∈ term.parts, Narrow (part.value Int64.toInt) := by
  induction term with
  | literal n => simp only [parts, forall_mem_singleton, value, id]
  | negate term ih =>
    simp only [parts, forall_mem_cons]
    rw [ih]
    refine and_congr_left fun hparts ↦ ?_
    have hexact := toInt_value hparts
    have hnarrow : Narrow (term.value id).toInt := hexact ▸ hparts term term.self_mem_parts
    rw [value, value, hnarrow.toInt_neg, hexact]
  | apply op left right ihleft ihright =>
    simp only [parts, forall_mem_cons, forall_mem_append]
    rw [ihleft, ihright]
    refine and_congr_left fun ⟨hleft, hright⟩ ↦ ?_
    have hl := toInt_value hleft
    have hr := toInt_value hright
    rw [value, value, Narrow.toInt_combine (hl ▸ hleft left left.self_mem_parts)
      (hr ▸ hright right right.self_mem_parts), hl, hr]

end IntegerTerm

/-- Two integers are combined as the operator's name says. -/
theorem IntegerOperator.exists_overload (op : IntegerOperator) :
    ∃ pos ov, Registry.standard.resolve op.name ["int", "int"] = some (pos, ov) ∧
      ov.result = .named "int" ∧
      ov.rules.evaluate = some (IntegerArithmetic.evaluateBinary op.combine) := by
  cases op with
  | add => exact ⟨_, IntegerArithmetic.addition, rfl, rfl, rfl⟩
  | subtract => exact ⟨_, IntegerArithmetic.subtraction, rfl, rfl, rfl⟩
  | multiply => exact ⟨_, IntegerArithmetic.multiplication, rfl, rfl, rfl⟩

namespace Draft

variable {d : Draft}

theorem Counts.attains_literal (hct : d.Counts) (hs : d.Sound) (n : Int64) :
    d.Attains (Build.constant "int" (.int n)) False fun d' id ↦
      d'.StoresConstant id "int" (.int n) := by
  obtain ⟨defn, hg, hsh⟩ := hct.scalar
  refine (attains_constant hs hg (.int n)).mono (fun hfl ↦ hfl) fun _ _ hst ↦ ?_
  rwa [TypeDefinition.normalize, hsh] at hst

/-- An application to constants is the constant that its rule makes of them. -/
theorem Counts.attains_evaluated (hct : d.Counts) (hs : d.Sound) {name : String} {pos : Nat}
    {ov : Overload} {ids : List NodeId} {ts : List String} {values : List Value}
    {rule : List Value → Option Value} (hrv : Registry.standard.resolve name ts = some (pos, ov))
    (hnd : ov.result = .named "int") (hru : ov.rules.evaluate = some rule)
    (hst : d.StoreConstants ids ts values) (hres : rule values = some (.int n)) :
    d.Attains (Build.apply name (ids.map .node)) False fun d' id ↦
      d'.StoresConstant id "int" (.int n) := by
  obtain ⟨defn, hg, -⟩ := hct.scalar
  obtain ⟨hm, rfl⟩ := mem_of_resolve hrv
  have hov := (overload?_of_resolve hrv).1
  rw [← hct.operators] at hrv hov
  have hresult : d.HasResult ts "int" ov.result := by
    rw [hnd]
    exact ⟨rfl, isSome_of_eq_some hg⟩
  have hvalue : d.result? "int" ids values (.registered ov.name pos) = some (.int n) := by
    rw [result?, hov, bind_some, hru, bind_some, hres]
  exact (hct.attains_literal hs n).of_run ((Build.run_perform_apply _ (standard_projection _ hm)
    hst.holdsValue hrv hresult).trans
      (run_finish_evaluated (run_evaluate?_of_result hst.constants? rfl hvalue)))

end Draft

namespace IntegerTerm

open Draft

/-- A term of literals comes to a constant. -/
theorem attains_build {d : Draft} (hct : d.Counts) (hs : d.Sound) (term : IntegerTerm) :
    d.Attains term.build False fun d' res ↦ d'.StoresConstant res "int" (.int (term.value id)) := by
  induction term generalizing d with
  | literal n => exact hct.attains_literal hs n
  | negate term ih =>
    refine (ih hct hs).bind fun hpr haf hst ↦ ?_
    have hrv : Registry.standard.resolve "-" ["int"] = some (_, IntegerArithmetic.negation) := rfl
    exact (hct.later hpr).attains_evaluated haf hrv rfl rfl (.cons hst .nil) rfl
  | apply op left right ihleft ihright =>
    obtain ⟨pos, ov, hrv, hnd, hru⟩ := op.exists_overload
    refine (ihleft hct hs).bind fun hpr haf hfst ↦ ?_
    have hct := hct.later hpr
    refine (ihright hct haf).bind fun hpr haf hsnd ↦ ?_
    exact (hct.later hpr).attains_evaluated haf hrv hnd hru
      (.cons (hfst.later hpr) (.cons hsnd .nil)) rfl

end IntegerTerm

namespace Draft

/-- Every term of integer literals comes to a constant, which agrees with arithmetic of 32 bits up to
multiples of 2³². It is the integer that 32 bits give if and only if it is in their range. All results
on the way are in the range if and only if the exact ones are. -/
theorem Reachable.build_integerTerm {draft : Draft} (hreachable : draft.Reachable)
    (hcounts : draft.Counts) (term : IntegerTerm) :
    (∃ result after, term.build.run draft = (.ok result, after) ∧
      after.StoresConstant result "int" (.int (term.value id))) ∧
    (term.value id).toInt32 = term.value Int64.toInt32 ∧
    ((term.value Int64.toInt32).toInt = (term.value id).toInt ↔
      Narrow (term.value id).toInt) ∧
    ((∀ part ∈ term.parts, Narrow (part.value id).toInt) ↔
      ∀ part ∈ term.parts, Narrow (part.value Int64.toInt)) := by
  obtain ⟨result, after, hrun, -, -, hstores⟩ :=
    (term.attains_build hcounts hreachable.sound).exists_ok
  refine ⟨⟨result, after, hrun, hstores⟩, term.toInt32_value, ?_, term.forall_parts_narrow_iff⟩
  rw [← term.toInt32_value]
  exact toInt_toInt32_eq_iff _

/-- The sum of the largest integer of 32 bits and one. -/
theorem build_integerTerm_successor : blank.Reachable ∧ blank.Counts ∧ ∃ result after,
    (IntegerTerm.apply .add (.literal 2147483647) (.literal 1)).build.run blank =
      (.ok result, after) ∧
    after.StoresConstant result "int" (.int 2147483648) ∧
    (2147483648 : Int64).toInt32 = -2147483648 ∧ ¬Narrow (2147483648 : Int64).toInt := by
  have hcounts : blank.Counts := ⟨rfl, _, rfl, rfl⟩
  obtain ⟨⟨result, after, hrun, hstores⟩, hvalue, hnarrow, -⟩ :=
    (Reachable.new ..).build_integerTerm hcounts (.apply .add (.literal 2147483647) (.literal 1))
  refine ⟨.new .., hcounts, result, after, hrun, hstores, hvalue, fun h ↦ ?_⟩
  have hwide := hnarrow.mpr h
  revert hwide
  decide

/-- The constants are in the range, and their sum is a constant out of it. -/
theorem exists_wide_constant : ∃ draft : Draft, draft.Reachable ∧
    draft.graph.nodes.toList.map Node.kind = [.constant (.int 2147483647), .constant (.int 1),
      .constant (.int 2147483648)] ∧
    Narrow (2147483647 : Int64).toInt ∧ Narrow (1 : Int64).toInt ∧
    ¬Narrow (2147483648 : Int64).toInt := by
  refine ⟨blank.requested [.constant "int" (.int 2147483647), .constant "int" (.int 1),
    .apply "+" [.node ⟨0, 0⟩, .node ⟨0, 1⟩]], reachable_requested _, by cbv, ?_⟩
  unfold Narrow
  decide

end Draft

end DiffGraph
