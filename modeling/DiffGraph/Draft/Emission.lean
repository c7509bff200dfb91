import DiffGraph.Draft.Dependencies
import DiffGraph.Draft.Memory
import DiffGraph.Types.Literal

/-!
Source text of a function. Statements follow the order of dependencies. An expression that is used
more than once becomes a temporary before its first use; every other expression is written where it
is used. Updated arguments have two names, one to read and one to write; in C, results are written
through pointers, and in JavaScript they are returned.
-/

set_option autoImplicit false

namespace DiffGraph

structure EmittedFunction where
  name : String
  language : Language
  /-- The head of the function, without its body. -/
  signature : String
  /-- The declaration ahead of the definition, in languages that have one. -/
  declaration : Option String
  /-- The statements, one a line, without indentation. -/
  body : List String
  /-- The types that the function mentions, directly or through other types, in order. -/
  types : List String
  indent : String
deriving DecidableEq

namespace EmittedFunction

/-- The whole text of the function. -/
def source (function : EmittedFunction) : String :=
  function.signature ++ " \x7b\n" ++
    String.join (function.body.map fun statement ↦ function.indent ++ statement ++ "\n") ++ "\x7d\n"

end EmittedFunction

/-- Whether an address is read or written. -/
inductive Access where
  | read
  | write
deriving DecidableEq

/-- The text of an address, and whether it is a pointer to what is meant. -/
structure AddressText where
  text : String
  isPointer : Bool

namespace AddressText

def value (address : AddressText) : String :=
  if address.isPointer then "*" ++ address.text else address.text

def member (address : AddressText) (field : String) : AddressText :=
  ⟨address.text ++ (if address.isPointer then "->" else ".") ++ field, false⟩

def index (address : AddressText) (position : Nat) : AddressText :=
  ⟨(if address.isPointer then "(*" ++ address.text ++ ")" else address.text) ++ s!"[{position}]",
    false⟩

end AddressText

/-- What is known in the course of writing the body. -/
structure Emission where
  /-- Names of temporaries. -/
  temporaries : Std.HashMap NodeId String
  /-- Texts of expressions that wait for their only use. -/
  pending : Std.HashMap NodeId String
  body : Array String

abbrev Emit := StateT Emission (Except Error)

namespace Draft

def previousName (draft : Draft) (name : String) : String := name ++ draft.options.previousSuffix

def nextName (draft : Draft) (name : String) : String := name ++ draft.options.nextSuffix

/-- Arguments with their nodes' types and directions. -/
def argumentTable (draft : Draft) : List (String × String × Direction) :=
  draft.arguments.map fun (name, id) ↦
    (name, ((draft.graph.node? id).map Node.type).getD "", draft.direction id)

/-- The parameters that an argument becomes. -/
def parameters (draft : Draft) (language : Language) (name type : String) :
    Direction → List String
  | .output =>
    match language with
    | .c => [s!"{type} *{name}"]
    | .cpp => [s!"{type} &{name}"]
    | .js => []
  | .update =>
    let previous := draft.previousName name
    let next := draft.nextName name
    match language with
    | .c => [s!"{type} {previous}", s!"{type} *{next}"]
    | .cpp => [s!"{type} const &{previous}", s!"{type} &{next}"]
    | .js => [previous]
  | .input =>
    match language with
    | .c => [s!"{type} {name}"]
    | .cpp => [s!"{type} const &{name}"]
    | .js => [name]

/-- The head of the function. JavaScript takes the inputs before the updated arguments. -/
def signature (draft : Draft) (language : Language) : String :=
  let list (wanted : Direction → Bool) : List String :=
    draft.argumentTable.flatMap fun (name, type, direction) ↦
      if wanted direction then draft.parameters language name type direction else []
  match language with
  | .c | .cpp => s!"void {draft.name}(" ++ ", ".intercalate (list fun _ ↦ true) ++ ")"
  | .js =>
    let parameters := list (· != .update) ++ list (· == .update)
    s!"function {draft.name}(" ++ ", ".intercalate parameters ++ ")"

/-- The text of an argument. -/
def argumentText (draft : Draft) (language : Language) (access : Access) (name : String) :
    Direction → AddressText
  | .input => ⟨name, false⟩
  | .output => ⟨name, language == .c⟩
  | .update =>
    match access with
    | .read => ⟨draft.previousName name, false⟩
    | .write => ⟨draft.nextName name, language == .c⟩

/-- The text of an address, from its argument on inwards. -/
def addressText (draft : Draft) (language : Language) (access : Access) (id : NodeId) :
    Except Error AddressText :=
  match (draft.graph.lineage id).reverse with
  | [] => .error (.notAddress "emit" (draft.describe id))
  | root :: parts => do
    let start ←
      match ((draft.graph.node? root).bind Node.argument?) with
      | some (name, direction) => .ok (draft.argumentText language access name direction)
      | none => .error (.notAddress "emit" (draft.describe root))
    parts.foldlM (fun address part ↦
      match (draft.graph.node? part).map Node.kind with
      | some (.expression (.member field) _) => .ok (address.member field)
      | some (.expression (.index position) _) => .ok (address.index position)
      | _ => .error (.notAddress "emit" (draft.describe part))) start

/-- The text that builds a value of a type from its slots. -/
def constructorText (draft : Draft) (language : Language) (type : String) (slots : List String) :
    String :=
  let list := ", ".intercalate slots
  match draft.types.get? type with
  | none => s!"{type}({list})"
  | some definition =>
    match definition.shape, language with
    | .scalar .integer, .js => s!"Math.trunc({list})"
    | .scalar .boolean, .js => s!"Boolean({list})"
    | .scalar _, .js => s!"Number({list})"
    | .scalar _, .c => s!"(({type})({list}))"
    | .scalar _, .cpp => s!"{type}({list})"
    | .abstract, .js => s!"new {type}({list})"
    | .abstract, _ => s!"{type}({list})"
    | .record .., _ | .template .., _ => definition.aggregate language slots

/-- How a node is written where it is used: as a text of its own, or as an operator applied to the
texts of its operands. -/
inductive Outline where
  | text (text : String)
  | application (operator : Operator)

def outline (draft : Draft) (language : Language) (id : NodeId) (node : Node) :
    Except Error Outline := do
  match node.kind with
  | .constant value =>
    match draft.types.literal language node.type value with
    | .ok text => return .text text
    | .error error => throw (.typing error)
  | .argument .. => return .text (← draft.addressText language .read id).value
  | .read address => return .text (← draft.addressText language .read address).value
  | .write address _ => return .text (← draft.addressText language .write address).value
  | .expression operator _ =>
    if node.isAddress then return .text (← draft.addressText language .read id).value
    else return .application operator

/-- The text of an expression from the texts of its operands. -/
def combine (draft : Draft) (language : Language) (type : String) (operator : Operator)
    (parts : List String) : Except Error String :=
  match operator with
  | .registered name overload =>
    match (draft.operators.overload? name overload).bind fun o ↦ o.rules.render language with
    | some render => .ok (render parts)
    | none => .error (.noRender name language)
  | .member field => .ok ((parts.head?.getD "") ++ "." ++ field)
  | .index position => .ok ((parts.head?.getD "") ++ s!"[{position}]")
  | .construct => .ok (draft.constructorText language type parts)

/-- The name of the temporary that holds an expression. -/
def temporaryName (draft : Draft) (id : NodeId) : String :=
  draft.options.temporaryStem ++ toString id.index

end Draft

namespace Emit

def fromDraft {α : Type} (answer : Except Error α) : Emit α := fun emission ↦ do
  return (← answer, emission)

/-- Hands over a waiting text, or the name of a temporary. -/
def take? (id : NodeId) : Emit (Option String) :=
  modifyGet fun emission ↦
    match emission.temporaries[id]? with
    | some name => (some name, emission)
    | none =>
      match emission.pending[id]? with
      | some text => (some text, { emission with pending := emission.pending.erase id })
      | none => (none, emission)

/-- The text of an operand: one that was prepared, or else one of its own. An expression that was
not prepared is rendered on the spot. -/
def operand (draft : Draft) (language : Language) (id : NodeId) : Emit String := do
  match ← take? id with
  | some text => return text
  | none =>
    match h : draft.graph.node? id with
    | none => throw (.foreignAccess id.index draft.name)
    | some node =>
      match ← fromDraft (draft.outline language id node) with
      | .text text => return text
      | .application operator =>
        let parts ← node.operands.attach.mapM fun ⟨part, member⟩ ↦
          have : part.index < id.index := Graph.operand_index_lt h member
          operand draft language part
        fromDraft (draft.combine language node.type operator parts)
termination_by id.index

def statement (text : String) : Emit Unit :=
  modify fun emission ↦ { emission with body := emission.body.push text }

/-- The declaration of a temporary. -/
def temporaryDeclaration (language : Language) (type name text : String) : String :=
  match language with
  | .c | .cpp => s!"const {type} {name} = {text};"
  | .js => s!"const {name} = {text};"

/-- Writes what a node contributes to the body, with a way to come by the texts of operands. -/
def nodeWith (operand : NodeId → Emit String) (draft : Draft) (language : Language)
    (dependencies : Dependencies) (id : NodeId) : Emit Unit := do
  let node ← fromDraft (draft.node id)
  match node.kind with
  | .write address value =>
    let target := (← fromDraft (draft.addressText language .write address)).value
    let value ← operand value
    statement s!"{target} = {value};"
  | .expression operator operands =>
    if !node.isAddress then
      let parts ← operands.mapM operand
      let text ← fromDraft (draft.combine language node.type operator parts)
      if 1 < dependencies.useCount id then
        let name := draft.temporaryName id
        statement (temporaryDeclaration language node.type name text)
        modify fun emission ↦
          { emission with temporaries := emission.temporaries.insert id name }
      else
        modify fun emission ↦ { emission with pending := emission.pending.insert id text }
  | _ => return ()

def node (draft : Draft) (language : Language) (dependencies : Dependencies) (id : NodeId) :
    Emit Unit :=
  nodeWith (operand draft language) draft language dependencies id

end Emit

namespace Draft

/-- The variables that JavaScript returns, with their types. -/
def returned (draft : Draft) : List (String × String) :=
  draft.argumentTable.filterMap fun (name, type, direction) ↦
    match direction with
    | .output => some (name, type)
    | .update => some (draft.nextName name, type)
    | .input => none

/-- Declarations of the variables that JavaScript returns, all zero at first. -/
def returnedDeclarations (draft : Draft) : Except Error (List String) :=
  draft.returned.mapM fun (name, type) ↦
    match draft.types.literal .js type .zero with
    | .ok zero => .ok s!"let {name} = {zero};"
    | .error error => .error (.typing error)

/-- The declarations at the head of the body. -/
def declarations (draft : Draft) (language : Language) : Except Error (List String) :=
  if language = .js then draft.returnedDeclarations else .ok []

def returnStatement (draft : Draft) : String :=
  match draft.returned with
  | [] => "return \x7b\x7d;"
  | results => "return \x7b " ++ ", ".intercalate (results.map Prod.fst) ++ " \x7d;"

/-- The types of the arguments and of all nodes that the writes depend on. -/
def mentionedTypes (draft : Draft) (dependencies : Dependencies) : List String :=
  let ofNodes := dependencies.discovered.toList.filterMap fun id ↦
    (draft.graph.node? id).map Node.type
  (draft.argumentTable.map fun (_, type, _) ↦ type) ++ ofNodes.eraseDups

def emit (draft : Draft) (language : Language) : Except Error EmittedFunction := do
  let dependencies := draft.dependencies
  let declarations ← draft.declarations language
  let (_, emission) ← (dependencies.inOrder.forM (Emit.node draft language dependencies)).run
    ⟨∅, ∅, #[]⟩
  let signature := draft.signature language
  return {
    name := draft.name
    language
    signature
    declaration := if language.declaresAhead then some (signature ++ ";") else none
    body := statements language draft.preamble ++ declarations ++ emission.body.toList ++
      statements language draft.postamble ++
      (if language = .js then [draft.returnStatement] else [])
    types := draft.types.referenced (draft.mentionedTypes dependencies)
    indent := draft.options.indent }

def emitAll (draft : Draft) : Except Error (List EmittedFunction) := Language.all.mapM draft.emit

end Draft

end DiffGraph
