import DiffGraph.Operator.Standard.Registry
import DiffGraph.Proofs.Draft.Requests
import DiffGraph.Proofs.Types.Conformity

/-!
The standard operators on constants. Each of them is a function of one or two numbers of one type,
so it yields a number of that type whenever the operands are of the types that it accepts.
-/

set_option autoImplicit false

namespace DiffGraph

variable {prec : Precision} {ts : List String} {ov : Overload}

/-- The operator computes a number from one or two numbers of the same type. -/
inductive Overload.Computes (ov : Overload) : Prop
  | unary {prec : Precision} {f : Binary64 → Binary64}
      (hpc : prec = .double ∨ prec = .single)
      (hres : ov.result = .named prec.type)
      (hpat : ov.patterns = [.exact prec.type])
      (hru : ov.rules.evaluate = some (prec.evaluateUnary f))
  | binary {prec : Precision} {f : Binary64 → Binary64 → Binary64}
      (hpc : prec = .double ∨ prec = .single)
      (hres : ov.result = .named prec.type)
      (hpat : ov.patterns = [.exact prec.type, .exact prec.type])
      (hru : ov.rules.evaluate = some (prec.evaluateBinary f))
  | negation (hres : ov.result = .named "int")
      (hpat : ov.patterns = [.exact "int"])
      (hru : ov.rules.evaluate = some IntegerArithmetic.evaluateNegation)
  | integer {f : Int64 → Int64 → Int64} (hres : ov.result = .named "int")
      (hpat : ov.patterns = [.exact "int", .exact "int"])
      (hru : ov.rules.evaluate = some (IntegerArithmetic.evaluateBinary f))

theorem Precision.computes (h : prec = .double ∨ prec = .single) :
    ∀ ov ∈ prec.operators, ov.Computes := by
  simp only [Precision.operators, List.forall_mem_cons]
  exact ⟨.binary h rfl rfl rfl, .binary h rfl rfl rfl, .unary h rfl rfl rfl, .binary h rfl rfl rfl,
    .binary h rfl rfl rfl, .unary h rfl rfl rfl, .unary h rfl rfl rfl, .unary h rfl rfl rfl,
    .unary h rfl rfl rfl, .unary h rfl rfl rfl, .unary h rfl rfl rfl, .unary h rfl rfl rfl,
    .unary h rfl rfl rfl, .unary h rfl rfl rfl, .unary h rfl rfl rfl, .binary h rfl rfl rfl,
    .unary h rfl rfl rfl, .unary h rfl rfl rfl, .binary h rfl rfl rfl, .binary h rfl rfl rfl,
    .binary h rfl rfl rfl, List.forall_mem_nil _⟩

theorem IntegerArithmetic.computes : ∀ ov ∈ IntegerArithmetic.operators, ov.Computes := by
  simp only [IntegerArithmetic.operators, List.forall_mem_cons]
  exact ⟨.integer rfl rfl rfl, .integer rfl rfl rfl, .negation rfl rfl rfl, .integer rfl rfl rfl,
    List.forall_mem_nil _⟩

theorem Registry.standard_computes : ∀ ov ∈ Registry.standard.overloads, ov.Computes := by
  intro ov h
  rcases List.mem_append.mp h with h | h
  · rcases List.mem_append.mp h with h | h
    · exact Precision.computes (.inl rfl) ov h
    · exact Precision.computes (.inr rfl) ov h
  · exact IntegerArithmetic.computes ov h

/-- No standard operator is written like a member or an element. -/
theorem Registry.standard_projection : ∀ ov ∈ Registry.standard.overloads,
      Build.applyWith.projection? ov.name = none := by
  decide

theorem Registry.mem_of_resolve {registry : Registry} {name : String} {pos : Nat}
    (h : registry.resolve name ts = some (pos, ov)) :
    ov ∈ registry.overloads ∧ ov.name = name := by
  have hm := List.mem_of_getElem? (overload?_of_resolve h).1
  obtain ⟨hls, hnm⟩ := List.mem_filter.mp hm
  exact ⟨hls, eq_of_beq hnm⟩

theorem ArgumentPattern.accepts_unary {t : String} (h : accepts [.exact t] ts = true) :
    ts = [t] := by
  cases ts with
  | nil => cases h
  | cons first rest =>
    obtain ⟨hfst, hrs⟩ := Bool.and_eq_true_iff.mp h
    rw [eq_of_beq hfst, List.isEmpty_iff.mp hrs]

theorem ArgumentPattern.accepts_binary {t : String}
    (h : accepts [.exact t, .exact t] ts = true) : ts = [t, t] := by
  cases ts with
  | nil => cases h
  | cons first rest =>
    obtain ⟨hfst, hrs⟩ := Bool.and_eq_true_iff.mp h
    rw [eq_of_beq hfst, accepts_unary hrs]

section Constants

variable {ts : TypeTable}

theorem Precision.get?_type (hts : ts.Concrete) (h : prec = .double ∨ prec = .single) :
    ∃ defn kind, ts.get? prec.type = some defn ∧
      defn.shape = .scalar kind ∧ kind.isFloat = true := by
  rcases h with rfl | rfl
  · exact ⟨_, _, hts.scalar rfl, rfl, rfl⟩
  · exact ⟨_, _, hts.scalar rfl, rfl, rfl⟩

/-- A conforming value of a floating-point type is a number. -/
theorem Precision.exists_float (hts : ts.Concrete) (h : prec = .double ∨ prec = .single) {v : Value}
    (hv : ts.Conforms v prec.type) : ∃ x, v = .float x := by
  obtain ⟨defn, kind, hg, hsh, hk⟩ := get?_type hts h
  rcases hv.scalar_cases hg hsh with ⟨-, hfloat⟩ | ⟨rfl, -⟩ | ⟨rfl, -⟩
  · exact hfloat
  · cases hk
  · cases hk

theorem exists_int (hts : ts.Concrete) {v : Value}
    (hv : ts.Conforms v "int") : ∃ n, v = .int n := by
  rcases hv.scalar_cases (hts.scalar rfl) rfl with ⟨hk, -⟩ | ⟨-, hint⟩ | ⟨hk, -⟩
  · cases hk
  · exact hint
  · cases hk

theorem Precision.conforms_result (hts : ts.Concrete)
    (h : prec = .double ∨ prec = .single) (x : Binary64) :
    ∃ defn, ts.get? prec.type = some defn ∧ ts.Conforms (defn.normalize (.float x)) prec.type := by
  obtain ⟨defn, kind, hg, hsh, hk⟩ := get?_type hts h
  exact ⟨defn, hg, (TypeTable.conforms_float hg hsh hk x).normalize hg⟩

theorem conforms_int (hts : ts.Concrete) (n : Int64) : ∃ defn, ts.get? "int" = some defn ∧
      ts.Conforms (defn.normalize (.int n)) "int" := by
  have hg : ts.get? "int" = some ⟨"int", .scalar .integer⟩ := hts.scalar rfl
  exact ⟨_, hg, TypeTable.Conforms.normalize ⟨_, hg, rfl⟩ hg⟩

theorem Overload.Computes.scalar_result (h : ov.Computes) (hts : ts.Concrete) :
    ∃ t defn kind, ov.result = .named t ∧ ts.get? t = some defn ∧ defn.shape = .scalar kind := by
  cases h with
  | unary hpc hres | binary hpc hres =>
    obtain ⟨defn, kind, hg, hsh, -⟩ := Precision.get?_type hts hpc
    exact ⟨_, defn, kind, hres, hg, hsh⟩
  | negation hres | integer hres => exact ⟨_, _, _, hres, hts.scalar rfl, rfl⟩

/-- On conforming values of the types that it accepts, the operator yields one of its result's
type. -/
theorem Overload.Computes.evaluate (h : ov.Computes) (hts : ts.Concrete)
    {names : List String} {values : List Value} (hacc : ov.accepts names = true)
    (hvs : List.Forall₂ ts.Conforms values names) :
    ∃ rule res type defn, ov.rules.evaluate = some rule ∧
      rule values = some res ∧ ov.result = .named type ∧
      ts.get? type = some defn ∧ ts.Conforms (defn.normalize res) type := by
  unfold accepts at hacc
  cases h with
  | unary hpc hres hpat hru =>
    rw [hpat] at hacc
    obtain rfl := ArgumentPattern.accepts_unary hacc
    obtain - | ⟨hfst, hno⟩ := hvs
    cases hno
    obtain ⟨x, rfl⟩ := Precision.exists_float hts hpc hfst
    obtain ⟨defn, hg, hconforms⟩ := Precision.conforms_result hts hpc _
    exact ⟨_, _, _, defn, hru, rfl, hres, hg, hconforms⟩
  | binary hpc hres hpat hru =>
    rw [hpat] at hacc
    obtain rfl := ArgumentPattern.accepts_binary hacc
    obtain - | ⟨hfst, - | ⟨hsnd, hno⟩⟩ := hvs
    cases hno
    obtain ⟨x, rfl⟩ := Precision.exists_float hts hpc hfst
    obtain ⟨y, rfl⟩ := Precision.exists_float hts hpc hsnd
    obtain ⟨defn, hg, hconforms⟩ := Precision.conforms_result hts hpc _
    exact ⟨_, _, _, defn, hru, rfl, hres, hg, hconforms⟩
  | negation hres hpat hru =>
    rw [hpat] at hacc
    obtain rfl := ArgumentPattern.accepts_unary hacc
    obtain - | ⟨hfst, hno⟩ := hvs
    cases hno
    obtain ⟨n, rfl⟩ := exists_int hts hfst
    obtain ⟨defn, hg, hconforms⟩ := conforms_int hts (-n)
    exact ⟨_, _, _, defn, hru, rfl, hres, hg, hconforms⟩
  | integer hres hpat hru =>
    rw [hpat] at hacc
    obtain rfl := ArgumentPattern.accepts_binary hacc
    obtain - | ⟨hfst, - | ⟨hsnd, hno⟩⟩ := hvs
    cases hno
    obtain ⟨m, rfl⟩ := exists_int hts hfst
    obtain ⟨n, rfl⟩ := exists_int hts hsnd
    obtain ⟨defn, hg, hconforms⟩ := conforms_int hts _
    exact ⟨_, _, _, defn, hru, rfl, hres, hg, hconforms⟩

end Constants

end DiffGraph
