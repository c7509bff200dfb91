import DiffGraph.Proofs.Draft.Listing
import DiffGraph.Proofs.Graph.Denotation

/-!
Runs of the reverse sweep, visit by visit. An adjoint is built in stages (`AdjointRun`).
-/

set_option autoImplicit false

namespace DiffGraph

open Stateful Build Reverse

variable {d : Draft} {name t other : String} {dir : Direction} {id partner : NodeId} {n : Node}
  {arguments : List (String × NodeId)}

namespace Build

variable {after : Draft}

theorem run_declareArgument_cons {entries : List (String × String × Direction)}
    (h : (declareArgument name t dir).run d = (.ok id, after)) :
    (((name, t, dir) :: entries).forM fun (name, t, dir) ↦ do
      let _ ← declareArgument name t dir : Build Unit).run d =
    (entries.forM fun (name, t, dir) ↦ do
      let _ ← declareArgument name t dir : Build Unit).run after :=
  run_forM_cons (run_bind_of_ok h)

end Build

namespace Reverse

section Visits

variable {after : Draft} {acc : Accumulator} {addr value amount : NodeId} {target : Node}

theorem run_node (hn : d.graph.node? id = some n) :
    (onDraft (Build.node id)).run ⟨d, acc⟩ = (.ok n, ⟨d, acc⟩) :=
  run_onDraft (run_node_of_some hn)

/-- Reads the gradient of an address when it is written to for the first time. -/
def seedNode (seeds : Partners) (seeded : List NodeId) (id : NodeId) : Reverse (List NodeId) := do
  match (← onDraft (Build.node id)).kind with
  | .write addr _ =>
    if seeded.contains addr then return seeded
    else
      match ← onDraft (Build.partnerAddress? seeds addr) with
      | some partner => push addr (← onDraft (Build.read partner))
      | none => pure ()
      return addr :: seeded
  | _ => return seeded

theorem seed_eq (seeds : Partners) (order : Array NodeId) :
    seed seeds order = (do let _ ← order.toList.foldlM (seedNode seeds) []) := by
  rw [Array.foldlM_toList]
  rfl

/-- Writes the gradient that arrived at a read, unless it is zero. -/
def depositRead (deposits : Partners) (effective : Bindings) (e : NodeId × NodeId) :
    Reverse Bindings := do
  let gradient ← effectiveGradient effective e.1 e.2
  let effective := effective.insert e.2 gradient
  if ← onDraft (Build.isZero gradient) then return effective
  else
    match ← onDraft (Build.partnerAddress? deposits e.2) with
    | some partner =>
      let _ ← onDraft (Build.write partner (.node gradient))
      return effective
    | none => return effective

theorem run_deposit (deposits : Partners) (order : Array NodeId) (sweep : Sweep) :
    (deposit deposits order).run sweep = (do
      let _ ← (bearingReads deposits sweep.draft.graph order).foldlM (depositRead deposits)
        ∅ : Reverse Unit).run sweep := by
  rw [deposit, run_get_bind]
  rfl

end Visits

end Reverse

namespace Draft

/-- The stages in which an adjoint is built. -/
structure AdjointRun (p : Draft) (owner : Nat) (ex : List String) where
  declared : Draft
  copied : Draft
  seeded : Sweep
  swept : Sweep
  last : Sweep
  declare : ((p.adjointArguments ex).forM fun (name, t, dir) ↦ do
    let _ ← Build.declareArgument name t dir : Build Unit).run
      (p.adjointStart owner).draft = (.ok ⟨⟩, declared)
  copy : (Build.copyWrites p).run declared = (.ok ⟨⟩, copied)
  seed : (Reverse.seed (p.gradientNames ex).seeds copied.dependencies.inOrder).run
    ⟨copied, .empty⟩ = (.ok ⟨⟩, seeded)
  sweep : (copied.dependencies.inOrder.reverse.forM Reverse.backward).run seeded =
    (.ok ⟨⟩, swept)
  deposit : (Reverse.deposit (p.gradientNames ex).deposits
    copied.dependencies.inOrder).run swept = (.ok ⟨⟩, last)

section Stages

variable {p : Draft} {owner : Nat} {ex : List String}

theorem exists_adjointRun {res : Draft} {ts : TypeTable} (h : p.adjoint owner ex = (.ok res, ts)) :
    ∃ run : p.AdjointRun owner ex, res = run.last.draft := by
  obtain ⟨last, hr, rfl⟩ := ok_of_adjoint h
  obtain ⟨⟨⟩, s, hbuild, hrs⟩ := ok_of_run_bind hr
  obtain ⟨copied, hbuilt, rfl⟩ := ok_of_run_onDraft hbuild
  obtain ⟨⟨⟩, declared, hdeclare, hcp⟩ := ok_of_run_bind hbuilt
  obtain ⟨m, s, hg, hstages⟩ := ok_of_run_bind hrs
  obtain ⟨rfl, rfl⟩ := ok_of_run_get hg
  obtain ⟨⟨⟩, seeded, hseed, hl⟩ := ok_of_run_bind hstages
  obtain ⟨⟨⟩, swept, hsw, hdeposit⟩ := ok_of_run_bind hl
  exact ⟨⟨declared, copied, seeded, swept, last, hdeclare, hcp, hseed, hsw, hdeposit⟩, rfl⟩

theorem AdjointRun.build (run : p.AdjointRun owner ex) : (do
    (p.adjointArguments ex).forM fun (name, t, dir) ↦ do
      let _ ← Build.declareArgument name t dir
    Build.copyWrites p : Build Unit).run (p.adjointStart owner).draft = (.ok ⟨⟩, run.copied) := by
  rw [run_bind_of_ok run.declare, run.copy]

/-- An adjoint without its last stage. -/
def sweepOf (p : Draft) (ex : List String) : Reverse Unit := do
  onDraft do
    (p.adjointArguments ex).forM fun (name, t, dir) ↦ do
      let _ ← Build.declareArgument name t dir
    Build.copyWrites p
  let order := (← get).draft.dependencies.inOrder
  Reverse.seed (p.gradientNames ex).seeds order
  order.reverse.forM Reverse.backward

theorem AdjointRun.run_sweepOf (run : p.AdjointRun owner ex) :
    (p.sweepOf ex).run (p.adjointStart owner) = (.ok ⟨⟩, run.swept) := by
  rw [sweepOf, run_bind_of_ok (run_onDraft run.build), run_get_bind]
  exact (run_bind_of_ok run.seed).trans run.sweep

/-- An adjoint is built once all its stages are gone through. -/
theorem AdjointRun.adjoint_eq (run : p.AdjointRun owner ex)
    (hdeclared : ex.find? (fun name ↦ (p.arguments.lookup name).isNone) = none) :
    p.adjoint owner ex = (.ok run.last.draft, run.last.draft.types) := by
  have hr : (Reverse.adjoint p ex).run (p.adjointStart owner) = (.ok ⟨⟩, run.last) := by
    rw [Reverse.adjoint, run_bind_of_ok (run_onDraft run.build), run_get_bind]
    exact (run_bind_of_ok run.seed).trans ((run_bind_of_ok run.sweep).trans run.deposit)
  have hsta : p.adjoint owner ex =
      (((Reverse.adjoint p ex).run (p.adjointStart owner)).1.map fun _ ↦
        ((Reverse.adjoint p ex).run (p.adjointStart owner)).2.draft,
      ((Reverse.adjoint p ex).run (p.adjointStart owner)).2.draft.types) := by
    rw [Draft.adjoint, hdeclared]
    rfl
  rw [hsta, hr]
  rfl

/-- An adjoint that is found was built in stages. -/
theorem exists_adjointRun_of_isOk (h : (p.adjoint owner ex).1.isOk = true) :
    ∃ run : p.AdjointRun owner ex,
      p.adjoint owner ex = (.ok run.last.draft, run.last.draft.types) := by
  rcases hadj : p.adjoint owner ex with ⟨_ | result, ts⟩
  · rw [hadj] at h
    cases h
  · obtain ⟨run, rfl⟩ := exists_adjointRun hadj
    refine ⟨run, ?_⟩
    cases hdeclared : ex.find? fun name ↦ (p.arguments.lookup name).isNone with
    | none => exact hadj.symm.trans (run.adjoint_eq hdeclared)
    | some name =>
      rw [adjoint, hdeclared] at hadj
      cases hadj

/-- The gradients are added to a draft that has the arguments and the copies. -/
theorem AdjointRun.leads (run : p.AdjointRun owner ex) : run.copied.Leads run.last.draft := by
  have hld := oversees_leads run.copied
  have hseed := (hld.seed _ _ ⟨.refl _, trivial⟩).1 run.seed
  have hsw := (Keeps.array_forM (fun id _ ↦ hld.backward id) hseed).1 run.sweep
  exact ((hld.deposit _ _ hsw).1 run.deposit).1

end Stages

section Sample

/-- The nodes of a function that writes its input to its output. -/
def identity : List (String × NodeKind × Bool) :=
  [("double", .argument "y" .output, true),
    ("double", .argument "x" .input, true),
    ("double", .read ⟨0, 1⟩, false),
    ("double", .write ⟨0, 0⟩ ⟨0, 2⟩, false)]

def identityDraft : Draft :=
  blank.requested [.declare "y" "double" .output, .declare "x" "double" .input, .read ⟨0, 1⟩,
    .write ⟨0, 0⟩ (.node ⟨0, 2⟩)]

theorem lists_identity :
    blank.Lists identityDraft identity [("y", ⟨0, 0⟩), ("x", ⟨0, 1⟩)] [⟨0, 3⟩] :=
  .of_listing (reachable_requested _) (by cbv)

/-- The draft that adjoints of samples grow out of. -/
def blankAdjoint : Draft := .new 1 "fGrad" .standard .scalars .default

def argumentsAdjoint : List (String × NodeId) :=
  [("y", ⟨1, 0⟩), ("xGrad", ⟨1, 1⟩), ("x", ⟨1, 2⟩), ("yGrad", ⟨1, 3⟩)]

/-- The nodes of its adjoint, which writes the gradient of the output to that of the input. -/
def adjointIdentity : List (String × NodeKind × Bool) :=
  [("double", .argument "y" .output, true),
    ("double", .argument "xGrad" .output, true),
    ("double", .argument "x" .input, true),
    ("double", .argument "yGrad" .input, true),
    ("double", .read ⟨1, 2⟩, false),
    ("double", .write ⟨1, 0⟩ ⟨1, 4⟩, false),
    ("double", .read ⟨1, 3⟩, false),
    ("double", .write ⟨1, 1⟩ ⟨1, 6⟩, false)]

variable {nodes : List (String × NodeKind × Bool)} {writes : List NodeId}

theorem Lists.node?_blankAdjoint (h : blankAdjoint.Lists d nodes arguments writes) (pos : Nat)
    {kind : NodeKind} {isAddress : Bool} (hpos : nodes[pos]? = some (t, kind, isAddress)) :
    ∃ n, d.graph.node? ⟨1, pos⟩ = some n ∧ n.type = t ∧ n.kind = kind ∧ n.isAddress = isAddress :=
  h.node? pos hpos

/-- Adjoints of samples can be computed. -/
theorem exists_adjoint_of_listing {p : Draft}
    (hpm : p.Reachable) (h : (p.adjoint 1 []).1.toOption.map listing =
      some (blankAdjoint.listing.1, nodes, arguments, writes)) :
    ∃ res, p.adjoint 1 [] = (.ok res, res.types) ∧
      blankAdjoint.Lists res nodes arguments writes := by
  obtain ⟨run, hadj⟩ : ∃ run : p.AdjointRun 1 [], _ := exists_adjointRun_of_isOk <| by
    cases hf : (p.adjoint 1 []).1 with
    | ok => rfl
    | error => rw [hf] at h; cases h
  rw [hadj] at h
  exact ⟨_, hadj, .of_listing (.adjoint hpm hadj) (Option.some.inj h)⟩

theorem exists_adjoint_identity : ∃ p res : Draft, p.Reachable ∧
    blank.Lists p identity [("y", ⟨0, 0⟩), ("x", ⟨0, 1⟩)] [⟨0, 3⟩] ∧
      p.adjoint 1 [] = (.ok res, res.types) ∧
      blankAdjoint.Lists res adjointIdentity argumentsAdjoint [⟨1, 5⟩, ⟨1, 7⟩] := by
  obtain ⟨res, hres⟩ : ∃ res, identityDraft.adjoint 1 [] = (.ok res, res.types) ∧
      blankAdjoint.Lists res adjointIdentity argumentsAdjoint [⟨1, 5⟩, ⟨1, 7⟩] :=
    exists_adjoint_of_listing lists_identity.reachable (by cbv)
  exact ⟨identityDraft, res, lists_identity.reachable, lists_identity, hres⟩

end Sample

end Draft

end DiffGraph
