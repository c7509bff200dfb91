import DiffGraph.Operator.Overload
import DiffGraph.Text.Quoted

/-!
The operators a function may use. Overloads stand in the order of their registration, and an
application takes the first overload of its name that accepts the types of its operands.
-/

set_option autoImplicit false

namespace DiffGraph

structure Registry where
  overloads : List Overload

namespace Registry

def empty : Registry := ⟨[]⟩

def register (registry : Registry) (overload : Overload) : Registry :=
  ⟨registry.overloads ++ [overload]⟩

/-- The overloads of one name, in the order of their registration. -/
def named (registry : Registry) (name : String) : List Overload :=
  registry.overloads.filter fun overload ↦ overload.name == name

def overload? (registry : Registry) (name : String) (position : Nat) : Option Overload :=
  (registry.named name)[position]?

/-- The first overload of the name that accepts the types, with its position among those of the
name. -/
def resolve (registry : Registry) (name : String) (types : List String) :
    Option (Nat × Overload) :=
  let overloads := registry.named name
  (overloads.findIdx? fun overload ↦ overload.accepts types).bind fun position ↦
    overloads[position]?.map fun overload ↦ (position, overload)

def contains (registry : Registry) (name : String) : Bool :=
  registry.overloads.any fun overload ↦ overload.name == name

def size (registry : Registry) : Nat := registry.overloads.length

def isEmpty (registry : Registry) : Bool := registry.overloads.isEmpty

/-- Operator names and the number of overloads, in one line. -/
def summary (registry : Registry) : String :=
  let names := (registry.overloads.map Overload.name).eraseDups.mergeSort fun a b ↦ decide (a ≤ b)
  let list := ", ".intercalate (names.map Text.quoted)
  s!"Registry \x7b ops: [{list}], overloads: {registry.size} \x7d"

end Registry

end DiffGraph
