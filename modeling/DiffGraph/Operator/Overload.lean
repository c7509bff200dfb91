import DiffGraph.Operator.Condition
import DiffGraph.Text.Natural

/-!
Overloads of operators. An overload accepts operands by a list of patterns on their types, names the
type of its result and carries the rules of the operator: how it is written in each language, what
it yields on constants, when it is replaced by something simpler, and how it is differentiated.
-/

set_option autoImplicit false

namespace DiffGraph

inductive ArgumentPattern where
  | exact (type : String)
  /-- One operand of any type. -/
  | any
  /-- All remaining operands, of any number and type. -/
  | rest
deriving DecidableEq, Repr

namespace ArgumentPattern

def parse (text : String) : ArgumentPattern :=
  if text = "ANY" then .any else if text = "..." then .rest else .exact text

/-- Whether a list of patterns accepts a list of types. -/
def accepts : List ArgumentPattern → List String → Bool
  | [], types => types.isEmpty
  | .rest :: _, _ => true
  | .any :: patterns, _ :: types => accepts patterns types
  | .exact type :: patterns, first :: types => first == type && accepts patterns types
  | .any :: _, [] | .exact _ :: _, [] => false

end ArgumentPattern

inductive ResultType where
  | named (type : String)
  /-- The type of an operand. -/
  | sameAs (operand : Nat)
deriving DecidableEq, Repr

namespace ResultType

/-- A dollar sign and a number name an operand; anything else is a type. -/
def parse (text : String) : ResultType :=
  match text.toList with
  | '$' :: rest =>
    match Text.natural? rest with
    | some operand => .sameAs operand
    | none => .named text
  | _ => .named text

end ResultType

/-- A gradient that flows from an expression into one of its operands. -/
structure Contribution where
  target : NodeId
  amount : NodeId
deriving DecidableEq

structure Rules where
  /-- The text of an application, from the texts of its operands. -/
  render : Language → Option (List String → String) := fun _ ↦ none
  /-- The derivative, from the operands and their derivatives. -/
  derivative : Option (List NodeId → List NodeId → Plan NodeId) := none
  /-- What flows into the operands when the given gradient flows into the result. -/
  gradient : Option (List NodeId → NodeId → Plan (List Contribution)) := none
  /-- Something simpler to use in place of the application. -/
  replace : Option (List NodeId → Plan (Option NodeId)) := none
  zeroTest : Option Condition := none
  oneTest : Option Condition := none
  /-- The result on constants. -/
  evaluate : Option (List Value → Option Value) := none

namespace Rules

def languages (rules : Rules) : List Language :=
  Language.all.filter fun language ↦ (rules.render language).isSome

/-- Which rules there are, in one line. -/
def summary (rules : Rules) : String :=
  let render := ", ".intercalate (rules.languages.map Language.label)
  let derivative := rules.derivative.isSome
  let gradient := rules.gradient.isSome
  let replace := rules.replace.isSome
  let evaluate := rules.evaluate.isSome
  s!"OpRules \x7b render: [{render}], deriv: {derivative}, gradient: {gradient}, " ++
    s!"replace: {replace}, imm: {evaluate}, .. \x7d"

end Rules

structure Overload where
  name : String
  result : ResultType
  patterns : List ArgumentPattern
  rules : Rules

namespace Overload

def accepts (overload : Overload) (types : List String) : Bool :=
  ArgumentPattern.accepts overload.patterns types

end Overload

end DiffGraph
