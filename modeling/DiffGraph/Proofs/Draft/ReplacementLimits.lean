import DiffGraph.Proofs.Draft.FixedPoints

/-!
How many replacements the standard operators need. A replacement may ask for another one: a
difference with zero in front becomes a negation, and a slot of what was read is the slot of the
address, read. Nothing nests deeper than that, however large the graph is, so that two replacements
are enough for every operation (`Draft.Reachable.replacements_suffice`). One is not.
-/

set_option autoImplicit false

namespace DiffGraph

open Stateful Build

theorem Error.Basic.ne_replacementLimit {error : Error} (h : error.Basic) (name : String)
    (number : Nat) : error ≠ .replacementLimit name number := by
  rintro rfl
  exact h

/-- The standard operators, where replacements never run out. -/
def Guard.standard (limit : Nat) (hlim : 2 ≤ limit) : Guard where
  fault error := ∀ name number, error ≠ .replacementLimit name number
  limit := limit
  operators := .standard
  basic _ := Error.Basic.ne_replacementLimit
  rules _ hm :=
    (Registry.standard_failsWithin hm fun _ ↦ Error.Basic.ne_replacementLimit).replace
  enough := .inr ⟨rfl, hlim⟩

theorem Guard.standard_covers {limit : Nat} (hlim : 2 ≤ limit) : (standard limit hlim).Covers :=
  ⟨fun _ hm ↦ Registry.standard_failsWithin hm (standard limit hlim).basic,
    fun _ _ _ heq ↦ by cases heq⟩

namespace Draft

variable {d draft : Draft}

theorem Reachable.guarded_standard (h : d.Reachable) (hopr : d.operators = .standard)
    (hlim : 2 ≤ d.options.replacementLimit) : d.Guarded (.standard _ hlim) :=
  ⟨rfl, hopr, h.guarded.bare, h.guarded.reads⟩

/-- Two replacements are enough for the standard operators: no operation, no adjoint and no
contribution to a gradient runs out of them. -/
theorem Reachable.replacements_suffice (hdraft : draft.Reachable)
    (hoperators : draft.operators = .standard) (hlimit : 2 ≤ draft.options.replacementLimit)
    (name : String) (number : Nat) :
    (∀ operation, ¬draft.Fails (.replacementLimit name number) operation) ∧
    (∀ owner excluded, (draft.adjoint owner excluded).1 ≠ .error (.replacementLimit name number)) ∧
    ∀ accumulator target amount, ((Reverse.push target amount).run ⟨draft, accumulator⟩).1 ≠
      .error (.replacementLimit name number) := by
  have hguarded := hdraft.guarded_standard hoperators hlimit
  have hcovers := Guard.standard_covers hlimit
  refine ⟨fun operation hfails ↦ ?_, fun owner excluded herror ↦ ?_,
    fun accumulator target amount herror ↦ ?_⟩
  · exact (hguarded.operate hcovers operation).2 _ hfails _ _ rfl
  · rcases error_of_adjoint herror with ⟨_, hundeclared⟩ | ⟨sweep, hrun⟩
    · cases hundeclared
    · exact (hguarded.adjoint hcovers owner excluded).2 hrun _ _ rfl
  · obtain ⟨-, hbasic | ⟨⟨_, hfinal⟩, -⟩⟩ := Reverse.error_of_run_push (Prod.ext herror rfl)
    · exact hbasic
    · cases hfinal

/-- A function that reads an integer, and zero. As many replacements may nest as given. -/
def tightDraft (limit : Nat) : Draft :=
  ((Build.intern "int" (.constant (.int 0)) false).run
    ((Draft.new 0 "f" .standard .scalars
      { Options.default with replacementLimit := limit }).requested
        [.declare "n" "int" .input, .read ⟨0, 0⟩])).2

theorem run_zero_minus_tight :
    ((Build.request (.apply "-" [.node ⟨0, 2⟩, .node ⟨0, 1⟩])).run (tightDraft 2)).1 =
      .ok ⟨0, 3⟩ := by cbv

theorem fails_zero_minus_tight : (tightDraft 1).Fails (.replacementLimit "-" 1)
    (.request (.apply "-" [.node ⟨0, 2⟩, .node ⟨0, 1⟩])) := by cbv

/-- Zero less the integer is its negation, which takes two replacements and not one. -/
theorem Reachable.replacements_suffice_tight : ∃ draft after : Draft, draft.Reachable ∧
    draft.operators = .standard ∧ draft.options.replacementLimit = 2 ∧
    (Build.request (.apply "-" [.node ⟨0, 2⟩, .node ⟨0, 1⟩])).run draft = (.ok ⟨0, 3⟩, after) ∧
    (∀ operation, ¬draft.Fails (.replacementLimit "-" 2) operation) ∧
    (tightDraft 1).Fails (.replacementLimit "-" 1)
      (.request (.apply "-" [.node ⟨0, 2⟩, .node ⟨0, 1⟩])) := by
  have hreachable : (tightDraft 2).Reachable :=
    .of_constant (.afterAll (.new ..) _) ⟨"int", .scalar .integer⟩ (by cbv) rfl
  have hoperators : (tightDraft 2).operators = .standard := by cbv
  have hlimit : (tightDraft 2).options.replacementLimit = 2 := by cbv
  exact ⟨tightDraft 2, _, hreachable, hoperators, hlimit, Prod.ext run_zero_minus_tight rfl,
    (hreachable.replacements_suffice hoperators (Nat.le_of_eq hlimit.symm) "-" 2).1,
    fails_zero_minus_tight⟩

end Draft

end DiffGraph
