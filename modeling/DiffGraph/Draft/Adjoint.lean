import DiffGraph.Draft.Accumulator
import DiffGraph.Draft.Dependencies
import DiffGraph.Draft.Derivative

/-!
The adjoint of a function. It makes the writes of the function again and adds writes of gradients:
each written address receives the gradient of its output, gradients flow back along the graph from
results to operands, and what arrives at the reads of an argument is written to the argument's
gradient. Arguments that are excluded have no gradient.
-/

set_option autoImplicit false

namespace DiffGraph

/-- Names of arguments with the names of their gradients. -/
abbrev Partners := List (String × String)

/-- The gradients that a function's adjoint reads and writes. -/
structure GradientNames where
  /-- Gradients of results, which flow in. -/
  seeds : Partners
  /-- Gradients of what is read, which flow out. -/
  deposits : Partners

namespace Draft

/-- Names, types and directions of the arguments. -/
def signatureOf (draft : Draft) : List (String × String × Direction) :=
  draft.arguments.filterMap fun (name, id) ↦
    (draft.graph.node? id).map fun node ↦ (name, node.type, draft.direction id)

/-- The arguments of one direction. -/
def argumentsOf (draft : Draft) (direction : Direction) : List (String × String) :=
  draft.signatureOf.filterMap fun (name, type, own) ↦
    if own = direction then some (name, type) else none

/-- The arguments of the adjoint in their order, with name, type and direction: outputs, gradients
of inputs, updated arguments each with its gradient, inputs, gradients of outputs. -/
def adjointArguments (draft : Draft) (excluded : List String) :
    List (String × String × Direction) :=
  let partner (direction : Direction) (entry : String × String) :
      List (String × String × Direction) :=
    if excluded.contains entry.1 then []
    else [(draft.options.gradientName entry.1, entry.2, direction)]
  let own (direction : Direction) (entry : String × String) : String × String × Direction :=
    (entry.1, entry.2, direction)
  (draft.argumentsOf .output).map (own .output) ++
    (draft.argumentsOf .input).flatMap (partner .output) ++
    (draft.argumentsOf .update).flatMap (fun entry ↦ own .update entry :: partner .update entry) ++
    (draft.argumentsOf .input).map (own .input) ++
    (draft.argumentsOf .output).flatMap (partner .input)

def gradientNames (draft : Draft) (excluded : List String) : GradientNames :=
  let partners (direction : Direction) : Partners :=
    ((draft.argumentsOf direction).filter fun entry ↦ !excluded.contains entry.1).map fun entry ↦
      (entry.1, draft.options.gradientName entry.1)
  ⟨partners .update ++ partners .output, partners .input ++ partners .update⟩

end Draft

namespace Build

/-- The copy of a node in this draft, given the copies of its operands. -/
def copyNode (node : Node) (copies : Bindings) : Build NodeId := do
  let copied (id : NodeId) : Build NodeId :=
    match copies[id]? with
    | some copy => return copy
    | none => throw (.foreignNode id.index)
  match node.kind with
  | .constant value => constant node.type value
  | .argument name _ => argument name
  | .read address => read (← copied address)
  | .write address value =>
    let address ← copied address
    let value ← copied value
    write address (.node value)
  | .expression operator operands =>
    rebuild operator node.type (← operands.mapM copied)

/-- Makes the writes of another draft, with all that they depend on. -/
def copyWrites (source : Draft) : Build Unit := do
  let _ ← source.dependencies.inOrder.foldlM (fun copies id ↦ do
    match source.graph.node? id with
    | some node => return copies.insert id (← copyNode node copies)
    | none => throw (.foreignNode id.index)) (∅ : Bindings)

/-- The address in an argument's gradient that corresponds to an address in the argument. -/
def partnerAddress? (partners : Partners) (address : NodeId) : Build (Option NodeId) := do
  let graph := (← get).graph
  let lineage := graph.lineage address
  match (graph.root? address).bind fun root ↦ (graph.node? root).bind Node.argument? with
  | none => return none
  | some (name, _) =>
    match partners.lookup name with
    | none => return none
    | some partner => return some (← descend (← argument partner) lineage.dropLast.reverse)

/-- The types of the slots of an aggregate with a known number of slots. -/
def slotTypes (operator : Operator) (definition : TypeDefinition) : Build (List String) :=
  match definition.shape with
  | .record fields _ => return fields.map Prod.snd
  | .template _ _ (some length) =>
    (List.range length).mapM fun position ↦
      match definition.element position with
      | .ok type => return type
      | .error error => throw (.typing error)
  | .template _ _ none | .scalar _ | .abstract =>
    throw (.noGradientRule operator.name [definition.name])

/-- An aggregate that has the gradient in one slot and zeros in the others. -/
def spread (operator : Operator) (type : String) (position : Nat) (gradient : NodeId) :
    Build NodeId := do
  let types ← slotTypes operator (← lookupType type)
  let parts ← types.zipIdx.mapM fun (slotType, i) ↦
    if i = position then return gradient else zero slotType
  construct type parts

/-- The position of a member. -/
def memberPosition (type field : String) : Build Nat := do
  match (← get).types.member type field with
  | .error error => throw (.typing error)
  | .ok ((position, _), types) =>
    modify fun draft ↦ { draft with types }
    return position

end Build

namespace Reverse

/-- Passes the gradient of a constructed value on to what it was constructed from. -/
def throughConstructor (type : String) (operands : List NodeId) (gradient : NodeId) :
    Reverse Unit := do
  let definition ← onDraft (Build.lookupType type)
  match definition.shape with
  | .scalar _ =>
    match operands with
    | [] => return ()
    | source :: _ =>
      let sourceType ← onDraft (Build.typeOf source)
      if (← onDraft (Build.lookupType sourceType)).isFloat then
        push source (← onDraft (Build.construct sourceType [gradient]))
  | .record fields _ =>
    (fields.zip operands).forM fun (entry, operand) ↦ do
      push operand (← onDraft (Build.member gradient entry.1))
  | .template .. =>
    operands.zipIdx.forM fun (operand, position) ↦ do
      push operand (← onDraft (Build.index gradient position))
  | .abstract => throw (.noGradientRule type (← onDraft (Build.typesOf operands)))

/-- Passes the gradient of an expression on to its operands. -/
def throughExpression (type : String) (operator : Operator) (operands : List NodeId)
    (gradient : NodeId) : Reverse Unit := do
  match operator, operands with
  | .registered name overload, operands =>
    match ((← get).draft.operators.overload? name overload).bind fun o ↦ o.rules.gradient with
    | none => throw (.noGradientRule name (← onDraft (Build.typesOf operands)))
    | some rule =>
      let flows ← onDraft (Build.carryOut (rule operands gradient))
      flows.forM fun flow ↦ push flow.target flow.amount
  | .member field, base :: _ =>
    let amount ← onDraft do
      let baseType ← Build.typeOf base
      Build.spread operator baseType (← Build.memberPosition baseType field) gradient
    push base amount
  | .index position, base :: _ =>
    let amount ← onDraft do Build.spread operator (← Build.typeOf base) position gradient
    push base amount
  | .construct, operands => throughConstructor type operands gradient
  | .member _, [] | .index _, [] => return ()

/-- Gives every written address the gradient of the result it belongs to, once. -/
def seed (seeds : Partners) (order : Array NodeId) : Reverse Unit := do
  let _ ← order.foldlM (fun (seeded : List NodeId) id ↦ do
    match (← onDraft (Build.node id)).kind with
    | .write address _ =>
      if seeded.contains address then return seeded
      else
        match ← onDraft (Build.partnerAddress? seeds address) with
        | some partner => push address (← onDraft (Build.read partner))
        | none => pure ()
        return address :: seeded
    | _ => return seeded) []

/-- Sums up the gradient of a node and passes it on. -/
def backward (id : NodeId) : Reverse Unit := do
  let node ← onDraft (Build.node id)
  match node.kind with
  | .write address value =>
    let gradient ← total address
    push value gradient
  | .read _ =>
    let _ ← total id
  | .expression operator operands =>
    if !node.isAddress then
      let gradient ← total id
      throughExpression node.type operator operands gradient
  | .constant _ | .argument .. => return ()

/-- The reads of addresses whose argument has a gradient, those of whole values before those of
their parts, each with its address. -/
def bearingReads (deposits : Partners) (graph : Graph) (order : Array NodeId) :
    List (NodeId × NodeId) :=
  let reads := order.toList.filterMap fun id ↦
    match (graph.node? id).map Node.kind with
    | some (.read address) =>
      match (graph.root? address).bind fun root ↦ (graph.node? root).bind Node.argument? with
      | some (name, _) =>
        if (deposits.lookup name).isSome then some (id, address) else none
      | none => none
    | _ => none
  reads.mergeSort fun a b ↦ (graph.lineage a.2).length ≤ (graph.lineage b.2).length

/-- The gradient of a read: its own total and its share in that of the nearest value around it. -/
def effectiveGradient (effective : Bindings) (read address : NodeId) : Reverse NodeId := do
  let own ← total read
  let lineage := (← get).draft.graph.lineage address
  match lineage.tail.findIdx? fun around ↦ effective.contains around with
  | none => return own
  | some depth =>
    match lineage.tail[depth]?.bind fun around ↦ effective[around]? with
    | none => return own
    | some outer =>
      onDraft do
        let share ← Build.descend outer (lineage.take (depth + 1)).reverse
        Build.sum own share

/-- Writes the gradients that arrived at the reads. -/
def deposit (deposits : Partners) (order : Array NodeId) : Reverse Unit := do
  let reads := bearingReads deposits (← get).draft.graph order
  let _ ← reads.foldlM (fun (effective : Bindings) (read, address) ↦ do
    let gradient ← effectiveGradient effective read address
    let effective := effective.insert address gradient
    if ← onDraft (Build.isZero gradient) then return effective
    else
      match ← onDraft (Build.partnerAddress? deposits address) with
      | some partner =>
        let _ ← onDraft (Build.write partner (.node gradient))
        return effective
      | none => return effective) (∅ : Bindings)

/-- Builds the adjoint of a function in an empty draft. -/
def adjoint (primal : Draft) (excluded : List String) : Reverse Unit := do
  onDraft do
    (primal.adjointArguments excluded).forM fun (name, type, direction) ↦ do
      let _ ← Build.declareArgument name type direction
    Build.copyWrites primal
  let names := primal.gradientNames excluded
  let order := (← get).draft.dependencies.inOrder
  seed names.seeds order
  order.reverse.forM backward
  deposit names.deposits order

end Reverse

namespace Draft

/-- The adjoint of a function, as a draft with a number of its own. Types that were extended on the
way stay extended, also after a failure. -/
def adjoint (primal : Draft) (owner : Nat) (excluded : List String) :
    Except Error Draft × TypeTable :=
  match excluded.find? fun name ↦ (primal.arguments.lookup name).isNone with
  | some name => (.error (.undeclared name), primal.types)
  | none =>
    let start := Draft.new owner (primal.options.gradientName primal.name) primal.operators
      primal.types primal.options
    let (outcome, sweep) := (Reverse.adjoint primal excluded).run ⟨start, .empty⟩
    (outcome.map fun _ ↦ sweep.draft, sweep.draft.types)

end Draft

end DiffGraph
