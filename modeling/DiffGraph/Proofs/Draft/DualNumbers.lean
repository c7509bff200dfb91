import Mathlib.Algebra.DualNumber
import Mathlib.Algebra.Field.Rat
import Mathlib.Tactic.FieldSimp
import DiffGraph.Proofs.Draft.Differentiation

/-!
Derivatives and dual numbers. A term made of arithmetic, squares, cubes, sines, cosines and
exponentials can be evaluated over the dual numbers of any field, with the infinitesimal added to the
address that it is differentiated by. The derivative that is built is what stands before the
infinitesimal in the result (`Reachable.differentiate_eq_dual`).
-/

set_option autoImplicit false

namespace DiffGraph

open List Stateful Build

variable {d last : Draft} {name : String} {id : NodeId}

/-- Numbers, reads, sines, cosines and exponentials in a field. -/
structure Elementary (F : Type) [Field F] where
  number : Binary64 → F
  read : AccessPath → F
  sine : F → F
  cosine : F → F
  exponential : F → F
  number_zero : ∀ ⦃x : Binary64⦄, x.isZero = true → number x = 0
  number_one : number .one = 1
  number_two : number .two = 2
  number_three : number .three = 3

namespace Elementary

/-- The operators of elementary terms. -/
def operators : List String := ["+", "-", "*", "/", "sqr", "cube", "sin", "cos", "exp"]

variable {F : Type} [Field F] (E : Elementary F)

def constant : Value → F
  | .float x => E.number x
  | value => if value.isOne then 1 else 0

def function : String → List F → F
  | "sqr", [x] => x * x
  | "cube", [x] => x * x * x
  | "sin", [x] => E.sine x
  | "cos", [x] => E.cosine x
  | "exp", [x] => E.exponential x
  | _, _ => 0

theorem constant_zero ⦃v : Value⦄ (h : v.isZero = true) : E.constant v = 0 := by
  cases v with
  | float x => exact E.number_zero h
  | int n =>
    obtain rfl : n = 0 := eq_of_beq h
    rfl
  | bool b => cases h
  | zero | tuple => rfl

theorem constant_one ⦃v : Value⦄ (h : v.isOne = true) : E.constant v = 1 := by
  cases v with
  | float x =>
    obtain rfl : x = .one := eq_of_beq h
    exact E.number_one
  | int n =>
    obtain rfl : n = 1 := eq_of_beq h
    rfl
  | bool | zero | tuple => cases h

def interpretation : Interpretation F :=
  ⟨E.constant, E.read, E.function, E.constant_zero, E.constant_one⟩

/-- A function of dual numbers, from a function and its derivative. -/
def extend (f deriv : F → F) (x : DualNumber F) : DualNumber F :=
  .inl (f x.fst) + .inr (deriv x.fst * x.snd)

/-- The quotient rule. -/
def quotient (x y : DualNumber F) : DualNumber F :=
  .inl (x.fst / y.fst) + .inr ((x.snd * y.fst - x.fst * y.snd) / (y.fst * y.fst))

/-- The operators on dual numbers. -/
def operateDual : String → List (DualNumber F) → DualNumber F
  | "+", [x, y] => x + y
  | "-", [x, y] => x - y
  | "-", [x] => -x
  | "*", [x, y] => x * y
  | "/", [x, y] => quotient x y
  | "sqr", [x] => x * x
  | "cube", [x] => x * x * x
  | "sin", [x] => extend E.sine E.cosine x
  | "cos", [x] => extend E.cosine (fun y ↦ -E.sine y) x
  | "exp", [x] => extend E.exponential E.exponential x
  | _, _ => 0

/-- Terms over the dual numbers, with the infinitesimal added at the end of the path. -/
def dualModel (path : AccessPath) : Model (DualNumber F) where
  constant value := .inl (E.constant value)
  read other := if other = path then .inl (E.read other) + .eps else .inl (E.read other)
  operate := E.operateDual

theorem snd_quotient (x y : DualNumber F) :
    (quotient x y).snd = x.snd / y.fst - x.fst * y.snd / (y.fst * y.fst) := by
  have hsnd : (quotient x y).snd = (x.snd * y.fst - x.fst * y.snd) / (y.fst * y.fst) := by
    simp [quotient]
  rw [hsnd]
  by_cases hz : y.fst = 0
  · simp [hz]
  · field_simp

theorem snd_extend (f deriv : F → F) (x : DualNumber F) :
    (extend f deriv x).snd = deriv x.fst * x.snd := by simp [extend]

theorem fst_extend (f deriv : F → F) (x : DualNumber F) :
    (extend f deriv x).fst = f x.fst := by simp [extend]

theorem operateDual_unary (hnm : name ∈ operators) (x : DualNumber F) :
    (E.operateDual name [x]).fst = E.interpretation.operate name [x.fst] ∧
      (E.operateDual name [x]).snd = E.interpretation.differential name [x.fst] [x.snd] := by
  simp only [operators, mem_cons, not_mem_nil, or_false] at hnm
  rcases hnm with rfl | rfl | rfl | rfl | rfl | rfl | rfl | rfl | rfl
  · exact ⟨rfl, (zero_mul x.snd).symm⟩
  · exact ⟨rfl, rfl⟩
  · exact ⟨rfl, (zero_mul x.snd).symm⟩
  · exact ⟨rfl, (zero_mul x.snd).symm⟩
  · refine ⟨rfl, ?_⟩
    have htwo : E.interpretation.slope "sqr" x.fst = 2 * x.fst := congrArg (· * x.fst) E.number_two
    show (x * x).snd = E.interpretation.slope "sqr" x.fst * x.snd
    rw [htwo, DualNumber.snd_mul]
    ring
  · refine ⟨rfl, ?_⟩
    have hthree : E.interpretation.slope "cube" x.fst = 3 * (x.fst * x.fst) :=
      congrArg (· * (x.fst * x.fst)) E.number_three
    show (x * x * x).snd = E.interpretation.slope "cube" x.fst * x.snd
    rw [hthree, DualNumber.snd_mul, DualNumber.snd_mul, TrivSqZeroExt.fst_mul]
    ring
  · exact ⟨fst_extend _ _ x, snd_extend _ _ x⟩
  · exact ⟨fst_extend _ _ x, snd_extend _ _ x⟩
  · exact ⟨fst_extend _ _ x, snd_extend _ _ x⟩

theorem operateDual_binary (hnm : name ∈ operators) (x y : DualNumber F) :
    (E.operateDual name [x, y]).fst = E.interpretation.operate name [x.fst, y.fst] ∧
      (E.operateDual name [x, y]).snd =
        E.interpretation.differential name [x.fst, y.fst] [x.snd, y.snd] := by
  have hno : (0 : DualNumber F).snd = 0 * x.snd + 0 * y.snd := by simp
  simp only [operators, mem_cons, not_mem_nil, or_false] at hnm
  rcases hnm with rfl | rfl | rfl | rfl | rfl | rfl | rfl | rfl | rfl
  · exact ⟨rfl, rfl⟩
  · exact ⟨rfl, rfl⟩
  · refine ⟨rfl, ?_⟩
    show (x * y).snd = x.snd * y.fst + x.fst * y.snd
    rw [DualNumber.snd_mul]
    ring
  · refine ⟨?_, snd_quotient x y⟩
    show (quotient x y).fst = x.fst / y.fst
    simp [quotient]
  · exact ⟨rfl, hno⟩
  · exact ⟨rfl, hno⟩
  · exact ⟨rfl, hno⟩
  · exact ⟨rfl, hno⟩
  · exact ⟨rfl, hno⟩

/-- Values are computed in the first parts, and derivatives by the chain rules in the second. -/
theorem operateDual_eq (hnm : name ∈ operators) (xs : List (DualNumber F)) :
    (E.operateDual name xs).fst = E.interpretation.operate name (xs.map TrivSqZeroExt.fst) ∧
      (E.operateDual name xs).snd = E.interpretation.differential name
        (xs.map TrivSqZeroExt.fst) (xs.map TrivSqZeroExt.snd) := by
  match xs with
  | [x] => exact E.operateDual_unary hnm x
  | [x, y] => exact E.operateDual_binary hnm x y
  | [] | x :: y :: z :: rest =>
    simp only [operators, mem_cons, not_mem_nil, or_false] at hnm
    rcases hnm with rfl | rfl | rfl | rfl | rfl | rfl | rfl | rfl | rfl <;> exact ⟨rfl, rfl⟩

/-- Over the dual numbers, an elementary term has its value and its derivative. -/
theorem denote_dualModel {t : String} (path : AccessPath) (htm : d.TermOver t (· ∈ operators) id) :
    (d.graph.denote (E.dualModel path) id).fst = d.graph.denote E.interpretation.model id ∧
      (d.graph.denote (E.dualModel path) id).snd = E.interpretation.tangent path d.graph id := by
  induction htm with
  | constant hst =>
    obtain ⟨n, hn, -, hk, -⟩ := hst
    rw [E.interpretation.tangent_constant path hn hk, Graph.denote_constant hn hk,
      Graph.denote_constant hn hk]
    exact ⟨rfl, rfl⟩
  | @read id addr n hn _ _ hk =>
    rw [Interpretation.tangent, Graph.denote_of_node? hn, Graph.denote_of_node? hn,
      Graph.denote_of_node? hn]
    simp only [hk]
    cases d.graph.accessPath? addr with
    | none => exact ⟨rfl, rfl⟩
    | some other =>
      simp only [Option.elim_some, dualModel, Interpretation.dual]
      split
      · exact ⟨add_zero _, zero_add _⟩
      · exact ⟨rfl, rfl⟩
  | @registered id n name pos args hn _ _ hk hnm _ ih =>
    have hvs : (args.map (d.graph.denote (E.dualModel path))).map TrivSqZeroExt.fst =
        args.map (d.graph.denote E.interpretation.model) := by
      rw [map_map]
      exact map_congr_left fun arg hop ↦ (ih arg hop).1
    have htan : (args.map (d.graph.denote (E.dualModel path))).map TrivSqZeroExt.snd =
        args.map (E.interpretation.tangent path d.graph) := by
      rw [map_map]
      exact map_congr_left fun arg hop ↦ (ih arg hop).2
    rw [E.interpretation.tangent_registered path hn hk, Graph.denote_registered hn hk,
      Graph.denote_registered hn hk, ← hvs, ← htan]
    exact E.operateDual_eq hnm _

/-- Elementary terms up to a last draft. -/
def setting {last : Draft} (hex : E.interpretation.Exact last operators) (limit : Nat) :
    Setting F where
  interpretation := E.interpretation
  last := last
  functions := ["sin", "cos", "exp", "sqr"]
  exact := hex.fewer (by decide)
  precision := .double
  limit := limit

theorem handles (hex : E.interpretation.Exact last operators) (limit : Nat) :
    ∀ name, name ∈ operators → (E.setting hex limit).Handles name := by
  show ∀ name ∈ operators, Precision.calls name ⊆ ["sin", "cos", "exp", "sqr"]
  decide

theorem attains_differentiate (hex : E.interpretation.Exact last operators) (hs : d.Sound)
    (hder : d.Derived) (hsup : d.Supports .double) {addr : NodeId} {path : AccessPath}
    (hpl : d.Locates addr "double" path) (htm : d.TermOver "double" (· ∈ operators) id) :
    d.Attains (Build.differentiate addr id) (d.options.replacementLimit < 2)
      fun d' deriv ↦ (E.setting hex d.options.replacementLimit).Means d' deriv
          (E.interpretation.tangent path last.graph id) :=
  Setting.attains_differentiate (S := E.setting hex d.options.replacementLimit)
    ⟨hs, hsup, rfl⟩ hder hpl (htm.mono (E.handles hex _))

/-- An interpretation in the rational numbers. -/
def rational : Elementary ℚ where
  number x := if x = .one then 1 else if x = .two then 2 else if x = .three then 3 else 0
  read _ := 0
  sine _ := 0
  cosine _ := 0
  exponential _ := 0
  number_zero x hz := by
    have hne {y : Binary64} (hy : y.isZero = false) : x ≠ y := by
      rintro rfl
      cases hz.symm.trans hy
    rw [if_neg (hne rfl), if_neg (hne rfl), if_neg (hne rfl)]
  number_one := rfl
  number_two := rfl
  number_three := rfl

theorem operate_rational (name : String) {values : List ℚ} (h : ∀ x ∈ values, x = 0) :
    rational.interpretation.operate name values = 0 := by
  have hfunction : rational.function name values = 0 := by
    unfold function
    split
    all_goals simp_all [rational]
  unfold Interpretation.operate
  split
  case h_6 => exact hfunction
  all_goals simp_all

end Elementary

namespace Draft

/-- Where all constants are zero, whatever is computed from them is zero as well. -/
theorem exact_rational
    (hz : ∀ {id : NodeId} {t : String} {v : Value}, d.StoresConstant id t v → v.isZero = true)
    (t : String) (names : List String) :
    Elementary.rational.interpretation.model.Exact d t names := by
  intro name pos ov ids id ts values rule res defn _ _ _ _ hvs _ _ hst
  have hall : ∀ x ∈ values.map Elementary.rational.constant, x = 0 := by
    rw [forall_mem_map]
    clear * - hvs hz
    induction hvs with
    | nil => exact forall_mem_nil _
    | cons hfst _ ih =>
      exact forall_mem_cons.mpr ⟨Elementary.rational.constant_zero (hz hfst), ih⟩
  exact (Elementary.rational.constant_zero (hz hst)).trans
    (Elementary.operate_rational name hall).symm

/-- The nodes of a function of two inputs that reads the second one. -/
def secondInput : List (String × NodeKind × Bool) :=
  [("double", .argument "x" .input, true),
    ("double", .argument "z" .input, true),
    ("double", .read ⟨0, 1⟩, false)]

def secondInputDraft : Draft :=
  blank.requested [.declare "x" "double" .input, .declare "z" "double" .input, .read ⟨0, 1⟩]

theorem lists_secondInput :
    blank.Lists secondInputDraft secondInput [("x", ⟨0, 0⟩), ("z", ⟨0, 1⟩)] [] :=
  .of_listing (reachable_requested _) (by cbv)

/-- The function with the zero, and with the zero as its derivative. -/
def secondInputZeroDraft : Draft :=
  ((Build.intern "double" (.constant (.float .zero)) false).run secondInputDraft).2

def secondInputSlopeDraft : Draft :=
  ((Build.recordDerivative ⟨0, 0⟩ ⟨0, 2⟩ ⟨0, 3⟩).run secondInputZeroDraft).2

theorem nodes_secondInputSlope : secondInputSlopeDraft.graph.nodes.toList.map Node.content =
    secondInput ++ [("double", .constant (.float .zero), false)] := by cbv

theorem run_differentiate_secondInput : (Build.differentiate ⟨0, 0⟩ ⟨0, 2⟩).run secondInputDraft =
    (.ok ⟨0, 3⟩, secondInputSlopeDraft) := by cbv

end Draft

end DiffGraph
