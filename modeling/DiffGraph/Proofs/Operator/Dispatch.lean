import Mathlib.Data.List.Forall2
import DiffGraph.Operator.Registry

/-!
Which overload an application goes to. Overloads are registered one after another, and of those that
have the name and accept the types the one that was registered first is found. Registering more
overloads changes neither what is found nor which overload has which position under its name
(`Registry.dispatch`), so nodes that keep a position keep their overload.
-/

set_option autoImplicit false

namespace DiffGraph

open List

/-- The patterns in front of the first one for all remaining operands match the leading types one by
one. Without such a pattern there are as many types as patterns. -/
def ArgumentPattern.Accept (patterns : List ArgumentPattern) (types : List String) : Prop :=
  let fixed := patterns.takeWhile (· ≠ .rest)
  Forall₂ (fun pattern type ↦ pattern = .any ∨ pattern = .exact type) fixed
      (types.take fixed.length) ∧
    (.rest ∈ patterns ∨ patterns.length = types.length)

theorem ArgumentPattern.accepts_iff {patterns : List ArgumentPattern} {types : List String} :
    accepts patterns types = true ↔ Accept patterns types := by
  induction patterns generalizing types with
  | nil => cases types <;> simp [accepts, Accept]
  | cons pattern patterns ih =>
    cases pattern with
    | rest => simp [accepts, Accept]
    | any => cases types <;> simp [accepts, Accept, ih]
    | exact type => cases types <;> simp [accepts, Accept, ih, and_assoc, eq_comm (b := type)]

namespace Registry

variable {overloads history : List Overload} {overload : Overload} {name : String}
  {types : List String} {position : Nat}

/-- The overload is one of the name that accepts the types. -/
def Serves (name : String) (types : List String) (overload : Overload) : Prop :=
  overload.name = name ∧ ArgumentPattern.Accept overload.patterns types

theorem resolve_cons :
    resolve ⟨overload :: overloads⟩ name types =
      if overload.name = name then
        if overload.accepts types then some (0, overload)
        else (resolve ⟨overloads⟩ name types).map (Prod.map (· + 1) id)
      else resolve ⟨overloads⟩ name types := by
  simp only [resolve, named, filter_cons, beq_iff_eq]
  split
  · simp only [findIdx?_cons]
    split
    · simp
    · simp [Option.map_bind, Option.bind_map, Function.comp_def]
  · rfl

theorem resolve_eq_none_iff :
    resolve ⟨overloads⟩ name types = none ↔ ∀ overload ∈ overloads, ¬Serves name types overload := by
  induction overloads with
  | nil => simp [resolve, named]
  | cons overload overloads ih =>
    rw [resolve_cons]
    split_ifs with hname haccepts <;>
      simp_all [Serves, Overload.accepts, ArgumentPattern.accepts_iff]

/-- What does not serve only counts for the position. -/
theorem resolve_of_first {earlier later : List Overload} (hs : Serves name types overload)
    (hothers : ∀ other ∈ earlier, ¬Serves name types other) :
    resolve ⟨earlier ++ overload :: later⟩ name types =
      some ((named ⟨earlier⟩ name).length, overload) := by
  induction earlier with
  | nil => simp [resolve_cons, hs.1, Overload.accepts, ArgumentPattern.accepts_iff.mpr hs.2, named]
  | cons first earlier ih =>
    obtain ⟨hfirst, hothers⟩ := forall_mem_cons.mp hothers
    rw [cons_append, resolve_cons, ih hothers]
    split_ifs with hname haccepts
    · exact absurd ⟨hname, ArgumentPattern.accepts_iff.mp haccepts⟩ hfirst
    · simp [named, hname]
    · simp [named, hname]

theorem resolve_eq_some_iff :
    resolve ⟨overloads⟩ name types = some (position, overload) ↔
      ∃ earlier later, overloads = earlier ++ overload :: later ∧ Serves name types overload ∧
        (∀ other ∈ earlier, ¬Serves name types other) ∧
        position = (named ⟨earlier⟩ name).length := by
  classical
  constructor
  · intro h
    cases hfind : overloads.find? fun other ↦ decide (Serves name types other) with
    | none =>
      have hnone := resolve_eq_none_iff.mpr (by simpa using hfind)
      cases h.symm.trans hnone
    | some first =>
      obtain ⟨hs, earlier, later, rfl, hothers⟩ := find?_eq_some_iff_append.mp hfind
      have hfirst : resolve ⟨earlier ++ first :: later⟩ name types = _ :=
        resolve_of_first (by simpa using hs) (by simpa using hothers)
      cases h.symm.trans hfirst
      exact ⟨earlier, later, rfl, by simpa using hs, by simpa using hothers, rfl⟩
  · rintro ⟨earlier, later, rfl, hs, hothers, rfl⟩
    exact resolve_of_first hs hothers

/-- The registry after the overloads were registered in this order. -/
def registered (history : List Overload) : Registry := history.foldl register empty

theorem foldl_register (registry : Registry) :
    history.foldl register registry = ⟨registry.overloads ++ history⟩ := by
  induction history generalizing registry with
  | nil => simp
  | cons overload history ih => simp [ih, register]

/-- The overload that was registered first among those of the name that accept the types is found,
with its position among those of the name. Further overloads change neither that nor what stands at
a position. -/
theorem dispatch (history further : List Overload) (name : String) (types : List String) :
    (∀ position overload, (registered history).resolve name types = some (position, overload) ↔
      ∃ earlier later, history = earlier ++ overload :: later ∧ Serves name types overload ∧
        (∀ other ∈ earlier, ¬Serves name types other) ∧
        position = ((registered earlier).named name).length) ∧
    ((registered history).resolve name types = none ↔
      ∀ overload ∈ history, ¬Serves name types overload) ∧
    (∀ found, (registered history).resolve name types = some found →
      (further.foldl register (registered history)).resolve name types = some found) ∧
    ∀ position overload, (registered history).overload? name position = some overload →
      (further.foldl register (registered history)).overload? name position = some overload := by
  have hregistered (overloads : List Overload) : registered overloads = ⟨overloads⟩ :=
    foldl_register empty
  simp only [foldl_register, hregistered]
  refine ⟨fun _ _ ↦ resolve_eq_some_iff, resolve_eq_none_iff, ?_, ?_⟩
  · rintro ⟨position, overload⟩ hfound
    obtain ⟨earlier, later, rfl, hrest⟩ := resolve_eq_some_iff.mp hfound
    exact resolve_eq_some_iff.mpr ⟨earlier, later ++ further, append_assoc .., hrest⟩
  · intro position overload hfound
    rw [overload?, named, filter_append]
    exact (getElem?_append_left (List.getElem?_eq_some_iff.mp hfound).1).trans hfound

end Registry

end DiffGraph
