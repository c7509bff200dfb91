import DiffGraph.Language
import DiffGraph.Types.Table
import DiffGraph.Value

/-!
Source text of constants. Which values a type can write is decided slot by slot: a scalar takes
numbers of its kind, a record one value per field, a template one value per element. The zero of a
type is always written, in the short form that the language has for it.
-/

set_option autoImplicit false

namespace DiffGraph

namespace Scalar

/-- A number with the suffix of its kind; infinities and what is not a number have names. -/
def floatLiteral (language : Language) (suffix : String) (x : Binary64) : String :=
  if x.isNaN then
    match language with
    | .js => "NaN"
    | .c | .cpp => "NAN"
  else if x.isInfinite then
    let sign := if x.isNegative then "-" else ""
    match language with
    | .js => sign ++ "Infinity"
    | .c | .cpp => sign ++ "INFINITY"
  else DecimalLayout.literal.render x ++ suffix

/-- The suffix of a single-precision literal. -/
def suffix (kind : Scalar) (language : Language) : String :=
  match kind, language with
  | .single, .c | .single, .cpp => "f"
  | _, _ => ""

def literal? (kind : Scalar) (language : Language) (value : Value) : Option String :=
  match kind, value with
  | .double, .zero | .single, .zero => some (floatLiteral language (kind.suffix language) .zero)
  | .double, v | .single, v => v.number?.map (floatLiteral language (kind.suffix language))
  | .integer, .int n => some (toString n.toInt)
  | .integer, .zero => some "0"
  | .integer, .float x => if x.isWhole then some (toString x.toInt64.toInt) else none
  | .boolean, .bool b => some (toString b)
  | .boolean, .zero => some "false"
  | _, _ => none

end Scalar

namespace TypeDefinition

/-- The short form of an aggregate whose slots are all zero. -/
def zeroAggregate (type : TypeDefinition) (language : Language) : String :=
  match language with
  | .c => s!"({type.name})\x7b0\x7d"
  | .cpp => s!"{type.name}\x7b\x7d"
  | .js => "\x7b\x7d"

/-- An aggregate written out, with the texts of its slots. -/
def aggregate (type : TypeDefinition) (language : Language) (slots : List String) : String :=
  let list := ", ".intercalate slots
  match language with
  | .c => s!"({type.name})\x7b{list}\x7d"
  | .cpp => s!"{type.name}\x7b{list}\x7d"
  | .js =>
    if type.isRecord then
      let entries := List.zipWith (fun entry slot ↦ s!"{entry.1}: {slot}") type.fields slots
      "\x7b" ++ ", ".intercalate entries ++ "\x7d"
    else "[" ++ list ++ "]"

/-- The text of a value of this type, given how the values of the types it names are written. -/
def literal (type : TypeDefinition) (language : Language)
    (slotLiteral : String → Value → Except TypeError String) (value : Value) :
    Except TypeError String :=
  let mismatch : Except TypeError String := .error (.literalMismatch type.name value.describe)
  match type.shape with
  | .scalar kind => ((kind.literal? language value).map .ok).getD mismatch
  | .record fields _ =>
    match value with
    | .zero =>
      if language = .js then do
        let slots ← fields.mapM fun entry ↦ slotLiteral entry.2 .zero
        return type.aggregate language slots
      else .ok (type.zeroAggregate language)
    | .tuple items =>
      if items.length = fields.length then do
        let slots ← (fields.zip items).mapM fun (entry, item) ↦ slotLiteral entry.2 item
        return type.aggregate language slots
      else mismatch
    | _ => mismatch
  | .template _ parameters length =>
    match value, parameters.head? with
    | .zero, element =>
      if language = .js then
        match element with
        | some element => do
          let slot ← slotLiteral element .zero
          return type.aggregate language (List.replicate (length.getD 0) slot)
        | none => .ok (type.aggregate language [])
      else .ok (type.zeroAggregate language)
    | .tuple items, some element =>
      if length.all (· = items.length) then do
        let slots ← items.mapM (slotLiteral element)
        return type.aggregate language slots
      else mismatch
    | _, _ => mismatch
  | .abstract =>
    match value with
    | .zero => .ok (if language = .js then "null" else type.zeroAggregate language)
    | _ => mismatch

end TypeDefinition

namespace TypeTable

/-- Finds the type and writes the value with the types defined before it. -/
def literalIn (language : Language) : List TypeDefinition → String → Value →
    Except TypeError String
  | [], name, _ => .error (.unknown name)
  | type :: earlier, name, value =>
    if type.name = name then type.literal language (literalIn language earlier) value
    else literalIn language earlier name value

def literal (types : TypeTable) (language : Language) (name : String) (value : Value) :
    Except TypeError String :=
  literalIn language types.newestFirst name value

end TypeTable

end DiffGraph
