import DiffGraph.Types.Basic

/-!
A table of types. Definitions are kept newest first, and a definition may only name types that were
defined before it, so every walk through fields and template parameters moves down the table and
ends. The only change to an existing definition is a field appended to an extensible record.
-/

set_option autoImplicit false

namespace DiffGraph

structure TypeTable where
  newestFirst : List TypeDefinition
deriving DecidableEq, Repr

namespace TypeTable

def empty : TypeTable := ⟨[]⟩

/-- The table of the scalars every function may use. -/
def scalars : TypeTable :=
  ⟨[⟨"bool", .scalar .boolean⟩, ⟨"int", .scalar .integer⟩, ⟨"float", .scalar .single⟩,
    ⟨"double", .scalar .double⟩]⟩

def size (types : TypeTable) : Nat := types.newestFirst.length

def isEmpty (types : TypeTable) : Bool := types.newestFirst.isEmpty

/-- The names in the order of their definition. -/
def names (types : TypeTable) : List String := types.newestFirst.reverse.map TypeDefinition.name

def get? (types : TypeTable) (name : String) : Option TypeDefinition :=
  types.newestFirst.find? fun type ↦ type.name == name

def require (types : TypeTable) (name : String) : Except TypeError TypeDefinition :=
  match types.get? name with
  | some type => .ok type
  | none => .error (.unknown name)

def insert (types : TypeTable) (type : TypeDefinition) : Except TypeError TypeTable :=
  if (types.get? type.name).isSome then .error (.duplicate type.name)
  else .ok ⟨type :: types.newestFirst⟩

/-- Appends a field; a name that is already there keeps its place and takes the new type. -/
def putField (fields : List (String × String)) (field : String × String) :
    List (String × String) :=
  if fields.any fun entry ↦ entry.1 == field.1 then
    fields.map fun entry ↦ if entry.1 == field.1 then field else entry
  else fields ++ [field]

/-- Every name in the list is defined; the first one that is not is reported. -/
def requireAll (types : TypeTable) (names : List String) : Except TypeError Unit :=
  match names.find? fun name ↦ (types.get? name).isNone with
  | some name => .error (.unknown name)
  | none => .ok ()

def addRecord (types : TypeTable) (name : String) (fields : List (String × String)) :
    Except TypeError TypeTable := do
  types.requireAll (fields.map Prod.snd)
  types.insert ⟨name, .record (fields.foldl putField []) none⟩

def addExtensibleRecord (types : TypeTable) (name : String) (fields : List (String × String))
    (extension : String) : Except TypeError TypeTable := do
  types.requireAll (fields.map Prod.snd)
  types.requireAll [extension]
  types.insert ⟨name, .record (fields.foldl putField []) (some extension)⟩

def addTemplate (types : TypeTable) (name family : String) (parameters : List String)
    (length : Option Nat) : Except TypeError TypeTable := do
  types.requireAll parameters
  types.insert ⟨name, .template family parameters length⟩

/-- Appends a field to the record of that name. -/
def extend (types : TypeTable) (name : String) (field : String × String) : TypeTable :=
  ⟨types.newestFirst.map fun type ↦
    if type.name == name then
      match type.shape with
      | .record fields extension => ⟨name, .record (fields ++ [field]) extension⟩
      | _ => type
    else type⟩

/-- Position and type of a member. An extensible record gains the field if it has no such one. -/
def member (types : TypeTable) (name field : String) :
    Except TypeError ((Nat × String) × TypeTable) := do
  let type ← types.require name
  match type.field? field with
  | some found => return (found, types)
  | none =>
    match type.shape with
    | .record fields (some extension) =>
      return ((fields.length, extension), types.extend name (field, extension))
    | _ => throw (.noMember name field)

def element (types : TypeTable) (name : String) (index : Nat) : Except TypeError String := do
  (← types.require name).element index

/-- The definitions that some name of the list reaches through fields and template parameters. A
definition adds its own references to the names looked for among the earlier ones. -/
def reachableIn : List TypeDefinition → List String → List String
  | [], _ => []
  | type :: earlier, wanted =>
    if type.name ∈ wanted then type.name :: reachableIn earlier (type.references ++ wanted)
    else reachableIn earlier wanted

/-- The names reached from a list of names, in alphabetical order. -/
def referenced (types : TypeTable) (roots : List String) : List String :=
  (reachableIn types.newestFirst roots).mergeSort fun a b ↦ decide (a ≤ b)

end TypeTable

end DiffGraph
