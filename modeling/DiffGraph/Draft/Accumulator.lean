import DiffGraph.Draft.Substitution

/-!
Gradients on their way back. A node collects contributions until its total is asked for; from then
on the total stands and nothing can be added. The total is the sum of the contributions from the
first to the last, slot by slot for aggregates that have no addition of their own.
-/

set_option autoImplicit false

namespace DiffGraph

structure Accumulator where
  contributions : Std.HashMap NodeId (List NodeId)
  totals : Std.HashMap NodeId NodeId

namespace Accumulator

def empty : Accumulator := ⟨∅, ∅⟩

def isFinalized (accumulator : Accumulator) (id : NodeId) : Bool :=
  accumulator.totals.contains id

/-- Contributions that are not summed up yet, in the order they came. -/
def pending (accumulator : Accumulator) (id : NodeId) : List NodeId :=
  accumulator.contributions.getD id []

end Accumulator

/-- A draft together with the gradients that flow through it. -/
structure Sweep where
  draft : Draft
  accumulator : Accumulator

/-- An operation on a draft and its gradients. -/
abbrev Reverse := ExceptT Error (StateM Sweep)

namespace TypeDefinition

/-- The ways into the slots of an aggregate with a known number of slots. -/
def slots? (type : TypeDefinition) : Option (List Operator) :=
  match type.shape with
  | .record fields _ => some (fields.map fun entry ↦ .member entry.1)
  | .template _ _ (some length) => some ((List.range length).map .index)
  | .template _ _ none | .scalar _ | .abstract => none

end TypeDefinition

namespace Build

/-- A slot of a node. -/
def slot (operator : Operator) (base : NodeId) : Build NodeId :=
  match operator with
  | .member field => member base field
  | .index position => index base position
  | .registered .. | .construct => throw (.notAddress "project" operator.name)

/-- The sum of two gradients; `depth` bounds how deep aggregates nest. -/
def sumWithin : Nat → NodeId → NodeId → Build NodeId
  | 0, a, b => apply "+" [.node a, .node b]
  | depth + 1, a, b => do
    let type ← typeOf a
    let other ← typeOf b
    if ((← get).operators.resolve "+" [type, other]).isSome then apply "+" [.node a, .node b]
    else if ← isZero a then return b
    else if ← isZero b then return a
    else
      match (← lookupType type).slots? with
      | none => apply "+" [.node a, .node b]
      | some slots =>
        let parts ← slots.mapM fun operator ↦ do
          let left ← slot operator a
          let right ← slot operator b
          sumWithin depth left right
        construct type parts

/-- The sum of two gradients. Aggregates nest no deeper than there are types. -/
def sum (a b : NodeId) : Build NodeId := do sumWithin ((← get).types.size + 1) a b

end Build

namespace Reverse

/-- An operation on the draft alone. -/
def onDraft {α : Type} (operation : Build α) : Reverse α :=
  ExceptT.mk fun ⟨draft, accumulator⟩ ↦
    let (outcome, draft) := operation.run draft
    (outcome, ⟨draft, accumulator⟩)

/-- Adds to the gradient of a node. Constants take no gradient. -/
def push (target amount : NodeId) : Reverse Unit := do
  onDraft (Build.checkOwned target)
  onDraft (Build.checkOwned amount)
  if (← get).accumulator.isFinalized target then
    throw (.gradientFinalized (← onDraft (Build.describe target)))
  if (← onDraft (Build.node target)).constant?.isSome then return ()
  modify fun ⟨draft, accumulator⟩ ↦
    ⟨draft, { accumulator with
      contributions :=
        accumulator.contributions.insert target (accumulator.pending target ++ [amount]) }⟩

/-- Takes the contributions of a node out of the accumulator. -/
def takePending (id : NodeId) : Reverse (List NodeId) :=
  modifyGet fun ⟨draft, accumulator⟩ ↦
    (accumulator.pending id,
      ⟨draft, { accumulator with contributions := accumulator.contributions.erase id }⟩)

/-- The total of a node, which is final from now on. A node without contributions has the zero of
its type. -/
def total (id : NodeId) : Reverse NodeId := do
  match (← get).accumulator.totals[id]? with
  | some total => return total
  | none =>
    let total ←
      match ← takePending id with
      | [] => onDraft do Build.zero (← Build.typeOf id)
      | first :: rest => onDraft (rest.foldlM Build.sum first)
    modify fun ⟨draft, accumulator⟩ ↦
      ⟨draft, { accumulator with totals := accumulator.totals.insert id total }⟩
    return total

end Reverse

end DiffGraph
