import DiffGraph.Language
import DiffGraph.Types.Basic

/-!
What can go wrong while a function is built, differentiated, evaluated or emitted. An error says its
cause; the wording is in `Error.message`. Nodes appear in errors as the text that describes them.
-/

set_option autoImplicit false

namespace DiffGraph

inductive Error where
  | typing (cause : TypeError)
  | noOverload (operator : String) (types : List String)
  | arity (operator : String) (expected got : Nat)
  | undeclared (name : String)
  | duplicateArgument (name : String)
  /-- An operation was given a node of another function. -/
  | foreignNode (index : Nat)
  /-- A query was given a node of another function. -/
  | foreignAccess (index : Nat) (function : String)
  | notAddress (action node : String)
  | writeToInput (argument : String)
  | writeTypeMismatch (expected found node : String)
  | constructorArity (type : String) (expected got : Nat)
  | noUnit (type : String)
  | noDerivativeRule (operator : String) (types : List String)
  | noGradientRule (operator : String) (types : List String)
  | notDifferentiable (node : String)
  | gradientFinalized (node : String)
  | noRender (operator : String) (language : Language)
  | replacementLimit (operator : String) (limit : Nat)
  | notConstant (node : String)
deriving DecidableEq, Repr

namespace Error

/-- A reference to an operand that is not there. It asks for one operand more than its position,
counted in a 64-bit word, so that the last position of the word asks for none. -/
def noOperand (operator : String) (position got : Nat) : Error :=
  .arity operator ((position + 1) % Nat.pow 2 64) got

def typeList (types : List String) : String := ", ".intercalate types

def message : Error → String
  | .typing cause => cause.message
  | .noOverload operator types => s!"no overload of `{operator}` accepts ({typeList types})"
  | .arity operator expected got => s!"`{operator}` takes {expected} argument(s), got {got}"
  | .undeclared name => s!"undeclared variable `{name}`"
  | .duplicateArgument name => s!"argument `{name}` declared twice"
  | .foreignNode index => s!"node n{index} belongs to a different context"
  | .foreignAccess index function => s!"node n{index} used with foreign context `{function}`"
  | .notAddress action node => s!"cannot {action} non-address node {node}"
  | .writeToInput argument => s!"cannot write to input argument `{argument}`"
  | .writeTypeMismatch expected found node =>
    s!"cannot store a `{found}` value into `{expected}` address {node}"
  | .constructorArity type expected got =>
    s!"constructor `{type}` expects {expected} argument(s), got {got}"
  | .noUnit type => s!"type `{type}` has no multiplicative unit"
  | .noDerivativeRule operator types =>
    s!"operator `{operator}` has no derivative rule for ({typeList types})"
  | .noGradientRule operator types =>
    s!"operator `{operator}` has no gradient rule for ({typeList types})"
  | .notDifferentiable node => s!"cannot differentiate {node}"
  | .gradientFinalized node => s!"gradient of {node} was already finalized"
  | .noRender operator language => s!"operator `{operator}` has no render rule for {language.name}"
  | .replacementLimit operator limit =>
    s!"rewriting `{operator}` exceeded {limit} nested replacements"
  | .notConstant node => s!"{node} does not fold to a constant"

end Error

end DiffGraph
