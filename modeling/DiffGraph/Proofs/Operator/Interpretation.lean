import Mathlib.Algebra.Field.Basic
import Mathlib.Algebra.Notation.Prod
import Mathlib.Tactic.Ring
import DiffGraph.Proofs.Graph.Denotation

/-!
The standard operators in a field. Arithmetic is that of the field; every other operator is any
function at all, and so are reads and constants, up to the zeros and ones among the constants. The
derivative of an operator is given by its partial derivatives, and a model in pairs carries a value
together with its derivative with respect to one address: `tangent` is the second part.

The laws that simplification relies on hold in a field (`lawful`) and in the pairs (`lawful_dual`).
-/

set_option autoImplicit false

namespace DiffGraph

/-- The laws behind the replacements of the standard operators. -/
structure Model.Lawful {α : Type} [Zero α] (model : Model α) : Prop where
  constant_zero : ∀ ⦃v : Value⦄, v.isZero = true → model.constant v = 0
  add_zero : ∀ x, model.operate "+" [x, 0] = x
  zero_add : ∀ x, model.operate "+" [0, x] = x
  sub_zero : ∀ x, model.operate "-" [x, 0] = x
  zero_sub : ∀ x, model.operate "-" [0, x] = model.operate "-" [x]
  sub_self : ∀ x, model.operate "-" [x, x] = 0
  neg_neg : ∀ x, model.operate "-" [model.operate "-" [x]] = x
  mul_zero : ∀ x, model.operate "*" [x, 0] = 0
  zero_mul : ∀ x, model.operate "*" [0, x] = 0
  mul_one : ∀ ⦃v : Value⦄, v.isOne = true → ∀ x,
    model.operate "*" [x, model.constant v] = x
  one_mul : ∀ ⦃v : Value⦄, v.isOne = true → ∀ x,
    model.operate "*" [model.constant v, x] = x
  div_one : ∀ ⦃v : Value⦄, v.isOne = true → ∀ x,
    model.operate "/" [x, model.constant v] = x
  zero_div : ∀ x, model.operate "/" [0, x] = 0

/-- Constants, reads and the operators other than arithmetic in a field. -/
structure Interpretation (F : Type) [Field F] where
  constant : Value → F
  read : AccessPath → F
  function : String → List F → F
  constant_zero : ∀ ⦃v : Value⦄, v.isZero = true → constant v = 0
  constant_one : ∀ ⦃v : Value⦄, v.isOne = true → constant v = 1

namespace Interpretation

variable {F : Type} [Field F] (I : Interpretation F)

def operate : String → List F → F
  | "+", [x, y] => x + y
  | "-", [x, y] => x - y
  | "-", [x] => -x
  | "*", [x, y] => x * y
  | "/", [x, y] => x / y
  | name, values => I.function name values

def model : Model F := ⟨I.constant, I.read, I.operate⟩

/-- A number of the program as an element of the field. -/
def number (x : Binary64) : F := I.constant (.float x)

theorem number_one : I.number .one = 1 := I.constant_one rfl

theorem lawful : I.model.Lawful where
  constant_zero := I.constant_zero
  add_zero := add_zero
  zero_add := zero_add
  sub_zero := sub_zero
  zero_sub := zero_sub
  sub_self := sub_self
  neg_neg := neg_neg
  mul_zero := mul_zero
  zero_mul := zero_mul
  mul_one _ hone x := (congrArg (x * ·) (I.constant_one hone)).trans (mul_one x)
  one_mul _ hone x := (congrArg (· * x) (I.constant_one hone)).trans (one_mul x)
  div_one _ hone x := (congrArg (x / ·) (I.constant_one hone)).trans (div_one x)
  zero_div := zero_div

/-- The derivative of a function of one number. Functions that are not listed have none that varies
with it. -/
def slope (name : String) (x : F) : F :=
  match name with
  | "sin" => I.function "cos" [x]
  | "cos" => -I.function "sin" [x]
  | "tan" => 1 / I.function "sqr" [I.function "cos" [x]]
  | "exp" => I.function "exp" [x]
  | "log" => 1 / x
  | "sqrt" => I.number .half / I.function "sqrt" [x]
  | "tanh" => 1 - I.function "sqr" [I.function "tanh" [x]]
  | "sqr" => I.number .two * x
  | "cube" => I.number .three * I.function "sqr" [x]
  | "relu" => I.function "step" [x]
  | "normangle" => 1
  | _ => 0

/-- The partial derivatives of a function of two numbers. -/
def partials (name : String) (x y : F) : F × F :=
  match name with
  | "leaky_relu" =>
    (I.function "step" [x] + (1 - I.function "step" [x]) * y, (1 - I.function "step" [x]) * x)
  | "atan2" => (y / (y * y + x * x), -(x / (y * y + x * x)))
  | "min" => (I.function "step" [y - x], 1 - I.function "step" [y - x])
  | "max" => (I.function "step" [x - y], 1 - I.function "step" [x - y])
  | _ => (0, 0)

/-- The chain rule for each operator. -/
def differential : String → List F → List F → F
  | "+", [_, _], [dx, dy] => dx + dy
  | "-", [_, _], [dx, dy] => dx - dy
  | "-", [_], [dx] => -dx
  | "*", [x, y], [dx, dy] => dx * y + x * dy
  | "/", [x, y], [dx, dy] => dx / y - x * dy / (y * y)
  | name, [x], [dx] => I.slope name x * dx
  | name, [x, y], [dx, dy] => (I.partials name x y).1 * dx + (I.partials name x y).2 * dy
  | _, _, _ => 0

/-- What does not vary has no derivative. -/
theorem differential_zero (name : String) (values : List F) :
    I.differential name values (values.map fun _ ↦ 0) = 0 := by
  have hz : ∀ dx ∈ values.map fun _ ↦ (0 : F), dx = 0 := by simp
  generalize values.map (fun _ ↦ (0 : F)) = tangents at hz
  unfold differential
  split <;> simp [hz]

/-- Values with their derivatives with respect to the address that the path leads to. -/
def dual (path : AccessPath) : Model (F × F) where
  constant value := (I.constant value, 0)
  read other := (I.read other, if other = path then 1 else 0)
  operate name arguments := (I.operate name (arguments.map Prod.fst),
    I.differential name (arguments.map Prod.fst) (arguments.map Prod.snd))

theorem lawful_dual (path : AccessPath) : (I.dual path).Lawful where
  constant_zero value hz := Prod.ext (I.constant_zero hz) rfl
  add_zero x := Prod.ext (add_zero x.1) (add_zero x.2)
  zero_add x := Prod.ext (zero_add x.1) (zero_add x.2)
  sub_zero x := Prod.ext (sub_zero x.1) (sub_zero x.2)
  zero_sub x := Prod.ext (zero_sub x.1) (zero_sub x.2)
  sub_self x := Prod.ext (sub_self x.1) (sub_self x.2)
  neg_neg x := Prod.ext (neg_neg x.1) (neg_neg x.2)
  mul_zero x := Prod.ext (mul_zero x.1) (show x.2 * 0 + x.1 * 0 = 0 by ring)
  zero_mul x := Prod.ext (zero_mul x.1) (show 0 * x.1 + 0 * x.2 = 0 by ring)
  mul_one value hone x := by
    refine Prod.ext ?_ ?_
    · show x.1 * I.constant value = x.1
      rw [I.constant_one hone, mul_one]
    · show x.2 * I.constant value + x.1 * 0 = x.2
      rw [I.constant_one hone, mul_one, mul_zero, add_zero]
  one_mul value hone x := by
    refine Prod.ext ?_ ?_
    · show I.constant value * x.1 = x.1
      rw [I.constant_one hone, one_mul]
    · show 0 * x.1 + I.constant value * x.2 = x.2
      rw [I.constant_one hone, one_mul, zero_mul, zero_add]
  div_one value hone x := by
    refine Prod.ext ?_ ?_
    · show x.1 / I.constant value = x.1
      rw [I.constant_one hone, div_one]
    · show x.2 / I.constant value - x.1 * 0 / (I.constant value * I.constant value) = x.2
      rw [I.constant_one hone, div_one, mul_zero, zero_div, sub_zero]
  zero_div x := by
    refine Prod.ext (zero_div x.1) ?_
    show 0 / x.1 - 0 * x.2 / (x.1 * x.1) = 0
    rw [zero_div, zero_mul, zero_div, sub_zero]

section Tangents

variable (path : AccessPath) {g : Graph} {id : NodeId} {n : Node}

/-- The derivative of a value with respect to the address that the path leads to. -/
def tangent (g : Graph) (id : NodeId) : F := (g.denote (I.dual path) id).2

/-- The first part of a pair is the value. -/
theorem fst_denote_dual (g : Graph) (id : NodeId) :
    (g.denote (I.dual path) id).1 = g.denote I.model id := by
  induction hix : id.index using Nat.strongRecOn generalizing id with
  | ind index ih =>
    cases hn : g.node? id with
    | none =>
      rw [Graph.denote, Graph.denote]
      split
      · rfl
      next found hf => cases hn.symm.trans hf
    | some n =>
      rw [Graph.denote_of_node? hn, Graph.denote_of_node? hn]
      cases hk : n.kind with
      | constant | argument | write => rfl
      | read addr =>
        dsimp only
        cases g.accessPath? addr <;> rfl
      | expression op args =>
        cases op with
        | registered name pos =>
          refine congrArg (I.operate name) ?_
          rw [List.map_map]
          refine List.map_congr_left fun arg hop ↦ ?_
          have hm : arg ∈ n.operands := by
            rw [Node.operands, hk]
            exact hop
          exact ih arg.index (hix ▸ Graph.operand_index_lt hn hm) arg rfl
        | member | index | construct => rfl

theorem tangent_constant (hn : g.node? id = some n) {v : Value}
    (hk : n.kind = .constant v) : I.tangent path g id = 0 := by
  rw [tangent, Graph.denote_constant hn hk]
  rfl

theorem tangent_read (hn : g.node? id = some n) {addr : NodeId} {other : AccessPath}
    (hk : n.kind = .read addr) (hpath : g.accessPath? addr = some other) :
    I.tangent path g id = if other = path then 1 else 0 := by
  rw [tangent, Graph.denote_read hn hk hpath]
  rfl

theorem tangent_registered (hn : g.node? id = some n) {name : String} {pos : Nat}
    {args : List NodeId} (hk : n.kind = .expression (.registered name pos) args) :
    I.tangent path g id = I.differential name (args.map (g.denote I.model))
      (args.map (I.tangent path g)) := by
  have hvs : (args.map (g.denote (I.dual path))).map Prod.fst = args.map (g.denote I.model) := by
    rw [List.map_map]
    exact List.map_congr_left fun arg _ ↦ I.fst_denote_dual path g arg
  have htan : (args.map (g.denote (I.dual path))).map Prod.snd =
      args.map (I.tangent path g) := List.map_map
  rw [tangent, Graph.denote_registered hn hk, ← hvs, ← htan]
  rfl

end Tangents

end Interpretation

end DiffGraph
