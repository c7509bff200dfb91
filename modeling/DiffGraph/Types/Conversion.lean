import DiffGraph.Types.Basic
import DiffGraph.Value

/-!
Constants of a type. `normalize` picks the one spelling under which a constant of a type is stored;
`convert` is the conversion of a constant to a scalar type that a program asks for by name.
-/

set_option autoImplicit false

namespace DiffGraph

namespace Scalar

/-- The zero of the type and integers take the form of the type's own numbers; single precision
rounds. Other values are kept as they are. -/
def normalize : Scalar → Value → Value
  | .integer, .zero => .int 0
  | .boolean, .zero => .bool false
  | .integer, value | .boolean, value => value
  | .double, .zero | .single, .zero => .float .zero
  | .double, .int n => .float (.ofInt64 n)
  | .single, .int n => .float (.singleOfInt64 n)
  | .single, .float x => .float x.toSingle
  | .double, value | .single, value => value

/-- Numbers lose their fraction as integers, and everything but zero is true. Aggregates have no
conversion. -/
def convert? : Scalar → Value → Option Value
  | _, .tuple _ => none
  | .double, .zero | .single, .zero => some (.float .zero)
  | .double, .bool b | .single, .bool b => some (.float (if b then .one else .zero))
  | .double, .float x | .single, .float x => some (.float x)
  | .double, .int n | .single, .int n => some (.float (.ofInt64 n))
  | .integer, .float x => some (.int x.toInt64)
  | .integer, .int n => some (.int n)
  | .integer, .bool b => some (.int (if b then 1 else 0))
  | .integer, .zero => some (.int 0)
  | .boolean, .bool b => some (.bool b)
  | .boolean, .zero => some (.bool false)
  | .boolean, .float x => some (.bool !x.isZero)
  | .boolean, .int n => some (.bool !(Binary64.ofInt64 n).isZero)

end Scalar

namespace TypeDefinition

def normalize (type : TypeDefinition) (value : Value) : Value :=
  match type.shape with
  | .scalar kind => kind.normalize value.canonical
  | _ => value.canonical

end TypeDefinition

end DiffGraph
