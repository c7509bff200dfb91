import DiffGraph.Draft.Basic

/-!
Arguments and writes. Names of arguments are unique. A write goes to an address that is not part of
an input and stores a value of the address's type; making the same write again changes nothing.
-/

set_option autoImplicit false

namespace DiffGraph

namespace Build

def declareArgument (name type : String) (direction : Direction) : Build NodeId := do
  if ((← get).arguments.lookup name).isSome then throw (.duplicateArgument name)
  let id ← intern type (.argument name direction) true
  modify fun draft ↦ { draft with arguments := draft.arguments ++ [(name, id)] }
  return id

/-- Declares an argument of a known type. -/
def declare (name type : String) (direction : Direction) : Build NodeId := do
  let _ ← lookupType type
  declareArgument name type direction

/-- Declares outputs, updated arguments and inputs, given by name and type, in this order. -/
def declareArguments (outputs updates inputs : List (String × String)) : Build Unit := do
  let tagged (direction : Direction) (entries : List (String × String)) :=
    entries.map fun (name, type) ↦ (name, type, direction)
  (tagged .output outputs ++ tagged .update updates ++ tagged .input inputs).forM
    fun (name, type, direction) ↦ do
      let _ ← declare name type direction

def argument (name : String) : Build NodeId := query fun draft ↦ draft.argument name

/-- The value to be written: a number takes the type of the address. -/
def writtenValue (type : String) : Operand → Build NodeId
  | .node id => do
    checkOwned id
    valueOf id
  | .float x => constant type (.float x)
  | .int n => constant type (.int n)

def recordWrite (id : NodeId) : Build Unit :=
  modify fun draft ↦
    if draft.writes.contains id then draft else { draft with writes := draft.writes ++ [id] }

def write (address : NodeId) (value : Operand) : Build NodeId := do
  checkOwned address
  let target ← node address
  if !target.isAddress then throw (.notAddress "write" (← describe address))
  let draft ← get
  let root := (draft.graph.root? address).bind draft.graph.node?
  match root.bind Node.argument? with
  | some (name, .input) => throw (.writeToInput name)
  | _ =>
    let value ← writtenValue target.type value
    let type ← typeOf value
    if type ≠ target.type then
      throw (.writeTypeMismatch target.type type (← describe address))
    let id ← intern target.type (.write address value) false
    recordWrite id
    return id

def addPreamble (language : Language) (statement : String) : Build Unit :=
  modify fun draft ↦ { draft with preamble := draft.preamble ++ [(language, statement)] }

def addPostamble (language : Language) (statement : String) : Build Unit :=
  modify fun draft ↦ { draft with postamble := draft.postamble ++ [(language, statement)] }

end Build

namespace Draft

/-- Statements of one language. -/
def statements (language : Language) (attached : List (Language × String)) : List String :=
  (attached.filter fun entry ↦ entry.1 == language).map Prod.snd

end Draft

end DiffGraph
