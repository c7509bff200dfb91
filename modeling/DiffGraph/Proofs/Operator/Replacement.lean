import DiffGraph.Proofs.Operator.Standard

/-!
How the operators on numbers are replaced. Arithmetic has rules of replacement and tests for zero,
which are the same in both precisions; functions have neither. Integers follow the rules of
arithmetic as well, except that their sign has no test for zero. An application to operands of one
floating-point type goes to an operator of that precision, one to integers to integer arithmetic.
-/

set_option autoImplicit false

namespace DiffGraph

open List Registry

variable {ov : Overload} {ts types : List String} {name : String} {pos : Nat}

/-- The ways in which the operators on numbers of a type are replaced, and their tests for zero. -/
inductive Overload.Replaces (ov : Overload) (t : String) : Prop
  | addition (hnm : ov.name = "+")
      (hpat : ov.patterns = [.exact t, .exact t])
      (hrep : ov.rules.replace = some (Rules.binaryPlan Rules.replaceAdd))
      (hz : ov.rules.zeroTest = some Rules.bothZero)
  | subtraction (hnm : ov.name = "-")
      (hpat : ov.patterns = [.exact t, .exact t])
      (hrep : ov.rules.replace = some (Rules.binaryPlan Rules.replaceSub))
      (hz : ov.rules.zeroTest = none)
  | negation (hnm : ov.name = "-") (hpat : ov.patterns = [.exact t])
      (hrep : ov.rules.replace = some (Rules.unaryPlan Rules.replaceNeg))
      (hz : ov.rules.zeroTest = some (.zeroConstant 0) ∨ ov.rules.zeroTest = none)
  | multiplication (hnm : ov.name = "*")
      (hpat : ov.patterns = [.exact t, .exact t])
      (hrep : ov.rules.replace = some (Rules.binaryPlan Rules.replaceMul))
      (hz : ov.rules.zeroTest = some Rules.eitherZero)
  | division (hnm : ov.name = "/")
      (hpat : ov.patterns = [.exact t, .exact t])
      (hrep : ov.rules.replace = some (Rules.binaryPlan Rules.replaceDiv))
      (hz : ov.rules.zeroTest = some (.zeroConstant 0))
  | unary (hpat : ov.patterns = [.exact t])
      (hrep : ov.rules.replace = none) (hz : ov.rules.zeroTest = none)
  | binary (hpat : ov.patterns = [.exact t, .exact t])
      (hrep : ov.rules.replace = none) (hz : ov.rules.zeroTest = none)

/-- The operator takes one or two operands of the type. -/
theorem Overload.Replaces.eq_of_accepts {t : String} (h : ov.Replaces t)
    (hacc : ov.accepts ts = true) : ts = [t] ∨ ts = [t, t] := by
  unfold accepts at hacc
  cases h with
  | negation _ hpat | unary hpat =>
    rw [hpat] at hacc
    exact .inl (ArgumentPattern.accepts_unary hacc)
  | addition _ hpat | subtraction _ hpat | multiplication _ hpat
  | division _ hpat | binary hpat =>
    rw [hpat] at hacc
    exact .inr (ArgumentPattern.accepts_binary hacc)

theorem IntegerArithmetic.replaces (h : ov ∈ IntegerArithmetic.operators) : ov.Replaces "int" := by
  revert ov
  simp only [IntegerArithmetic.operators, forall_mem_cons]
  exact ⟨.addition rfl rfl rfl rfl, .subtraction rfl rfl rfl rfl, .negation rfl rfl rfl (.inr rfl),
    .multiplication rfl rfl rfl rfl, forall_mem_nil _⟩

namespace Precision

variable {prec : Precision}

theorem replaces (h : ov ∈ prec.operators) : ov.Replaces prec.type := by
  revert ov
  simp only [operators, forall_mem_cons]
  exact ⟨.addition rfl rfl rfl rfl, .subtraction rfl rfl rfl rfl, .negation rfl rfl rfl (.inl rfl),
    .multiplication rfl rfl rfl rfl, .division rfl rfl rfl rfl, .unary rfl rfl rfl,
    .unary rfl rfl rfl, .unary rfl rfl rfl, .unary rfl rfl rfl, .unary rfl rfl rfl,
    .unary rfl rfl rfl, .unary rfl rfl rfl, .unary rfl rfl rfl, .unary rfl rfl rfl,
    .unary rfl rfl rfl, .binary rfl rfl rfl, .unary rfl rfl rfl, .unary rfl rfl rfl,
    .binary rfl rfl rfl, .binary rfl rfl rfl, .binary rfl rfl rfl,
    forall_mem_nil _⟩

theorem result_eq (h : ov ∈ prec.operators) : ov.result = .named prec.type := by
  revert ov
  simp only [operators, forall_mem_cons]
  exact ⟨rfl, rfl, rfl, rfl, rfl, rfl, rfl, rfl, rfl, rfl, rfl, rfl, rfl, rfl, rfl, rfl, rfl, rfl,
    rfl, rfl, rfl, forall_mem_nil _⟩

/-- The names of the operators on floating-point numbers. -/
def names : List String :=
  ["+", "-", "-", "*", "/", "sin", "cos", "tan", "exp", "log", "sqrt", "tanh", "sqr", "cube", "relu",
    "leaky_relu", "step", "normangle", "atan2", "min", "max"]

theorem mem_names (h : ov ∈ prec.operators) : ov.name ∈ names := by
  have hnames : prec.operators.map Overload.name = names := rfl
  exact hnames ▸ mem_map_of_mem h

section

variable (hpc : prec = .double ∨ prec = .single)

include hpc

/-- The operator that takes operands of a floating-point type is one of that precision. -/
theorem mem_operators_of_resolve (hrv : Registry.standard.resolve name types = some (pos, ov))
    (hts : ∀ t ∈ types, t = prec.type) : ov ∈ prec.operators := by
  have hacc := (overload?_of_resolve hrv).2
  have hfst : ∀ {other : Precision}, ov ∈ other.operators → other.type = prec.type := by
    intro other hm
    rcases (replaces hm).eq_of_accepts hacc with rfl | rfl
    · exact hts _ mem_cons_self
    · exact hts _ mem_cons_self
  rcases mem_append.mp (mem_of_resolve hrv).1 with hfloat | hinteger
  · rcases mem_append.mp hfloat with hdouble | hsg
    · rcases hpc with rfl | rfl
      · exact hdouble
      · exact absurd (hfst hdouble) (by decide)
    · rcases hpc with rfl | rfl
      · exact absurd (hfst hsg) (by decide)
      · exact hsg
  · have hm : "int" ∈ types := by
      rcases (IntegerArithmetic.replaces hinteger).eq_of_accepts hacc with rfl | rfl
      · exact mem_cons_self
      · exact mem_cons_self
    rcases hpc with rfl | rfl <;> exact absurd (hts _ hm) (by decide)

theorem length_le_two_of_resolve (hrv : Registry.standard.resolve name ts = some (pos, ov))
    (hts : ∀ t ∈ ts, t = prec.type) : ts.length ≤ 2 := by
  have hacc := (overload?_of_resolve hrv).2
  rcases (replaces (mem_operators_of_resolve hpc hrv hts)).eq_of_accepts hacc with
    rfl | rfl
  · exact Nat.le_succ 1
  · exact Nat.le_refl 2

/-- The functions and signs of one operand that derivatives are made of. -/
theorem resolve_unary : ∀ name ∈ ["-", "sin", "cos", "exp", "sqrt", "tanh", "sqr", "step"],
      (Registry.standard.resolve name [prec.type]).isSome = true := by
  rcases hpc with rfl | rfl <;> decide

theorem resolve_arithmetic : ∀ name ∈ ["+", "-", "*", "/"],
      (Registry.standard.resolve name [prec.type, prec.type]).isSome = true := by
  rcases hpc with rfl | rfl <;> decide

end

end Precision

namespace IntegerArithmetic

theorem result_eq (h : ov ∈ operators) : ov.result = .named "int" := by
  revert ov
  simp only [operators, forall_mem_cons]
  exact ⟨rfl, rfl, rfl, rfl, forall_mem_nil _⟩

/-- Only integer arithmetic has integers for results. -/
theorem mem_or_result (h : ov ∈ Registry.standard.overloads) :
    ov ∈ operators ∨ ∃ type, type ≠ "int" ∧ ov.result = .named type := by
  rcases mem_append.mp h with hfloats | hinteger
  · rcases mem_append.mp hfloats with hdouble | hsg
    · exact .inr ⟨_, by decide, Precision.result_eq hdouble⟩
    · exact .inr ⟨_, by decide, Precision.result_eq hsg⟩
  · exact .inl hinteger

/-- The operator that takes integers is one of integer arithmetic. -/
theorem mem_operators_of_resolve (hrv : Registry.standard.resolve name ts = some (pos, ov))
    (hts : ∀ t ∈ ts, t = "int") : ov ∈ operators := by
  have hacc := (overload?_of_resolve hrv).2
  have hfloat {prec : Precision} (hne : prec.type ≠ "int")
      (hm : ov ∈ prec.operators) : ov ∈ operators := by
    refine absurd (hts prec.type ?_) hne
    rcases (Precision.replaces hm).eq_of_accepts hacc with rfl | rfl
    · exact mem_cons_self
    · exact mem_cons_self
  rcases mem_append.mp (mem_of_resolve hrv).1 with hfloats | hinteger
  · rcases mem_append.mp hfloats with hdouble | hsg
    · exact hfloat (by decide) hdouble
    · exact hfloat (by decide) hsg
  · exact hinteger

end IntegerArithmetic

theorem Registry.standard_replaces (h : ov ∈ Registry.standard.overloads) :
    ∃ type, ov.Replaces type := by
  rcases mem_append.mp h with hfloats | hinteger
  · rcases mem_append.mp hfloats with hdouble | hsg
    · exact ⟨_, Precision.replaces hdouble⟩
    · exact ⟨_, Precision.replaces hsg⟩
  · exact ⟨_, IntegerArithmetic.replaces hinteger⟩

end DiffGraph
