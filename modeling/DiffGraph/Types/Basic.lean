/-!
Types are known by name. A type is a scalar, a record with named fields, an instance of a template
with elements of one type, or abstract. The parts of a type are names again; a table says what they
stand for.
-/

set_option autoImplicit false

namespace DiffGraph

inductive Scalar where
  | double
  | single
  | integer
  | boolean
deriving DecidableEq, Repr

inductive Shape where
  | scalar (kind : Scalar)
  /-- Fields in declaration order. An extensible record has a type for the fields it gains later. -/
  | record (fields : List (String × String)) (extension : Option String)
  /-- The first parameter is the element type; without a length any index is in range. -/
  | template (family : String) (parameters : List String) (length : Option Nat)
  | abstract
deriving DecidableEq, Repr

structure TypeDefinition where
  name : String
  shape : Shape
deriving DecidableEq, Repr

inductive TypeError where
  | unknown (type : String)
  | duplicate (type : String)
  | noMember (type field : String)
  | notIndexable (type : String)
  | indexOutOfBounds (type : String) (index length : Nat)
  | literalMismatch (type value : String)
deriving DecidableEq, Repr

namespace TypeError

def message : TypeError → String
  | .unknown type => s!"unknown type `{type}`"
  | .duplicate type => s!"type `{type}` is already defined"
  | .noMember type field => s!"type `{type}` has no member `{field}`"
  | .notIndexable type => s!"type `{type}` cannot be indexed"
  | .indexOutOfBounds type index length =>
    s!"index {index} out of bounds for `{type}` of length {length}"
  | .literalMismatch type value => s!"cannot format {value} as a `{type}` literal"

end TypeError

namespace Scalar

def isFloat : Scalar → Bool
  | .double | .single => true
  | .integer | .boolean => false

end Scalar

namespace TypeDefinition

def scalar? (type : TypeDefinition) : Option Scalar :=
  match type.shape with
  | .scalar kind => some kind
  | _ => none

def isFloat (type : TypeDefinition) : Bool := type.scalar?.any Scalar.isFloat

def isRecord (type : TypeDefinition) : Bool :=
  match type.shape with
  | .record .. => true
  | _ => false

def isExtensible (type : TypeDefinition) : Bool :=
  match type.shape with
  | .record _ extension => extension.isSome
  | _ => false

def fields (type : TypeDefinition) : List (String × String) :=
  match type.shape with
  | .record fields _ => fields
  | _ => []

/-- Position and type of a field that is already there. -/
def field? (type : TypeDefinition) (field : String) : Option (Nat × String) :=
  (type.fields.findIdx? fun entry ↦ entry.1 == field).bind fun position ↦
    type.fields[position]?.map fun entry ↦ (position, entry.2)

/-- The element type at an index. A fixed length bounds the index. -/
def element (type : TypeDefinition) (index : Nat) : Except TypeError String :=
  match type.shape with
  | .template _ parameters length =>
    match length with
    | some bound =>
      if bound ≤ index then .error (.indexOutOfBounds type.name index bound)
      else (parameters.head?.map .ok).getD (.error (.notIndexable type.name))
    | none => (parameters.head?.map .ok).getD (.error (.notIndexable type.name))
  | _ => .error (.notIndexable type.name)

/-- The number of slots: fields of a record, elements of a template with a length, one for a
scalar. -/
def arity? (type : TypeDefinition) : Option Nat :=
  match type.shape with
  | .scalar _ => some 1
  | .record fields _ => some fields.length
  | .template _ _ length => length
  | .abstract => none

/-- The types that fields and template parameters name. -/
def references (type : TypeDefinition) : List String :=
  match type.shape with
  | .record fields _ => fields.map Prod.snd
  | .template _ parameters _ => parameters
  | .scalar _ | .abstract => []

end TypeDefinition

end DiffGraph
