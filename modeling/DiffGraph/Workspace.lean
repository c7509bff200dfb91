import DiffGraph.Draft.Adjoint

/-!
Drafts that are worked on side by side. Drafts of one library share its operators and its table of
types: a type that one of them extends is extended for all. Every draft gets a number of its own, so
that nodes are never mistaken for each other.
-/

set_option autoImplicit false

namespace DiffGraph

structure Library where
  operators : Registry
  types : TypeTable

structure WorkspaceEntry where
  library : Nat
  draft : Draft

structure Workspace where
  libraries : Array Library
  entries : Std.HashMap String WorkspaceEntry
  nextOwner : Nat

namespace Workspace

def empty : Workspace := ⟨#[], ∅, 0⟩

/-- Adds a library and gives its position. -/
def addLibrary (workspace : Workspace) (library : Library) : Nat × Workspace :=
  (workspace.libraries.size, { workspace with libraries := workspace.libraries.push library })

/-- Puts a new draft of a library under a key. -/
def addDraft (workspace : Workspace) (key : String) (library : Nat) (name : String)
    (options : Options) : Workspace :=
  let found := (workspace.libraries[library]?).getD ⟨.empty, .empty⟩
  let draft := Draft.new workspace.nextOwner name found.operators found.types options
  { workspace with
    entries := workspace.entries.insert key ⟨library, draft⟩
    nextOwner := workspace.nextOwner + 1 }

/-- The draft under a key, with the types as they are now. -/
def draft? (workspace : Workspace) (key : String) : Option Draft := do
  let entry ← workspace.entries[key]?
  let library ← workspace.libraries[entry.library]?
  return { entry.draft with types := library.types }

def setTypes (workspace : Workspace) (library : Nat) (types : TypeTable) : Workspace :=
  { workspace with
    libraries := workspace.libraries.modify library fun found ↦ { found with types } }

/-- Puts a draft back after work on it. -/
def putDraft (workspace : Workspace) (key : String) (library : Nat) (draft : Draft) : Workspace :=
  { workspace.setTypes library draft.types with
    entries := workspace.entries.insert key ⟨library, draft⟩ }

/-- Works on the draft under a key. Without such a draft there is no outcome and no change. -/
def run {α : Type} (workspace : Workspace) (key : String) (operation : Build α) :
    Option (Except Error α) × Workspace :=
  match workspace.draft? key, workspace.entries[key]? with
  | some draft, some entry =>
    let position := entry.library
    let workspace := { workspace with entries := workspace.entries.erase key }
    let (outcome, draft) := operation.run draft
    (some outcome, workspace.putDraft key position draft)
  | _, _ => (none, workspace)

/-- Works on the draft under a key and on an accumulator of gradients. -/
def runReverse {α : Type} (workspace : Workspace) (key : String) (accumulator : Accumulator)
    (operation : Reverse α) : Option (Except Error α) × Accumulator × Workspace :=
  match workspace.draft? key, workspace.entries[key]? with
  | some draft, some entry =>
    let position := entry.library
    let workspace := { workspace with entries := workspace.entries.erase key }
    let (outcome, sweep) := operation.run ⟨draft, accumulator⟩
    (some outcome, sweep.accumulator, workspace.putDraft key position sweep.draft)
  | _, _ => (none, accumulator, workspace)

/-- The adjoint of the draft under a key, with the workspace in which it can be put under a key of
its own. -/
def adjoint (workspace : Workspace) (key : String) (excluded : List String) :
    Option (Except Error WorkspaceEntry × Workspace) := do
  let entry ← workspace.entries[key]?
  let draft ← workspace.draft? key
  let (outcome, types) := draft.adjoint workspace.nextOwner excluded
  let workspace := { workspace with nextOwner := workspace.nextOwner + 1 }
  return (outcome.map fun adjoint ↦ ⟨entry.library, adjoint⟩,
    workspace.setTypes entry.library types)

def putEntry (workspace : Workspace) (key : String) (entry : WorkspaceEntry) : Workspace :=
  { workspace with entries := workspace.entries.insert key entry }

end Workspace

end DiffGraph
