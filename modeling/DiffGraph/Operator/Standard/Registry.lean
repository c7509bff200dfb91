import DiffGraph.Operator.Registry
import DiffGraph.Operator.Standard.Float
import DiffGraph.Operator.Standard.Integer

/-!
The standard operators: floating-point operators in double and in single precision, and integer
arithmetic.
-/

set_option autoImplicit false

namespace DiffGraph

namespace Registry

def standard : Registry :=
  ⟨Precision.double.operators ++ Precision.single.operators ++ IntegerArithmetic.operators⟩

end Registry

end DiffGraph
