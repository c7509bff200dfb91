import Mathlib.Logic.Relation
import DiffGraph.Proofs.Types.Conformity
import DiffGraph.Proofs.Types.Normalization

/-!
One spelling for each value. A value is spelled anew, at any depth, where a zero loses its sign and
where a nonempty aggregate of zeros becomes the zero of its type. Spelling out in full comes to
`Value.canonical`, which leaves nothing to be spelled anew; so two values have one canonical spelling
exactly if one can be had from the other by such steps and their converses
(`Value.canonical_normalForm`).
-/

set_option autoImplicit false

namespace DiffGraph

namespace Value

open List Relation TypeTable

variable {v w : Value} {items : List Value}

/-- What holds of an aggregate once it holds of its items holds of every value. -/
theorem nested_induction {motive : Value → Prop} (float : ∀ x, motive (.float x))
    (int : ∀ n, motive (.int n)) (bool : ∀ b, motive (.bool b)) (zero : motive .zero)
    (tuple : ∀ items, (∀ v ∈ items, motive v) → motive (.tuple items)) (v : Value) : motive v :=
  @Value.rec motive (fun items ↦ ∀ v ∈ items, motive v) float int bool zero tuple
    (forall_mem_nil _) (fun _ _ hhead htail ↦ forall_mem_cons.mpr ⟨hhead, htail⟩) v

/-- The first value is the second one or stands in it, at any depth. -/
inductive Within (part : Value) : Value → Prop
  | self : Within part part
  | item {items : List Value} {v : Value} (hv : v ∈ items) (h : Within part v) :
      Within part (.tuple items)

/-- One respelling, at any depth. -/
inductive Respells : Value → Value → Prop
  | sign : Respells (.float .negativeZero) (.float .zero)
  | collapse {items : List Value} (hne : items ≠ []) (hzero : allZero items = true) :
      Respells (.tuple items) .zero
  | item (front back : List Value) {v w : Value} (h : Respells v w) :
      Respells (.tuple (front ++ v :: back)) (.tuple (front ++ w :: back))

theorem isOne_canonical (v : Value) : v.canonical.isOne = v.isOne := by
  cases v with
  | float x =>
    rw [canonical_float]
    split
    next hnegative => rw [hnegative]; rfl
    next => rfl
  | tuple items =>
    rw [canonical]
    split <;> rfl
  | int | bool | zero => rfl

theorem canonical_tuple (hne : items ≠ []) : (tuple items).canonical =
    if allZero items = true then .zero else .tuple (items.map canonical) := by
  have hsome : (canonicalAll items).isEmpty = false := by
    cases items with
    | nil => exact absurd rfl hne
    | cons v items => rfl
  rw [canonical, hsome, allZero_canonicalAll, canonicalAll_eq_map]
  rfl

/-- Nothing in a canonical value can be spelled anew. -/
theorem within_canonical {part : Value} (v : Value) (h : part.Within v.canonical) :
    part ≠ .float .negativeZero ∧
      ∀ items, part = .tuple items → items ≠ [] → allZero items = false := by
  induction v using nested_induction with
  | float x =>
    have hne := canonical_ne_negativeZero (.float x)
    rw [canonical_float] at h hne
    split at h <;> cases h <;> simp_all
  | int | bool | zero =>
    rw [canonical] at h
    · cases h
      simp
    all_goals simp
  | tuple items ih =>
    by_cases hne : items = []
    · subst hne
      cases h with
      | self => simp [canonical, canonicalAll]
      | item hv _ => cases hv
    · rw [canonical_tuple hne] at h
      split at h
      next =>
        cases h
        simp
      next hzero =>
        cases h with
        | self =>
          rw [← canonicalAll_eq_map]
          simp [allZero_canonicalAll, hzero]
        | item hv h =>
          obtain ⟨v, hmem, rfl⟩ := mem_map.mp hv
          exact ih v hmem h

theorem canonical_of_respells (h : Respells v w) : v.canonical = w.canonical := by
  induction h with
  | sign => rw [canonical_float, canonical_float, if_pos rfl, if_neg (by decide)]
  | collapse hne hzero => exact (canonical_tuple hne).trans (if_pos hzero)
  | item front back _ ih =>
    refine (canonical_tuple_eq_iff (by simp)).mpr (.inl ?_)
    rw [canonicalAll_eq_map, canonicalAll_eq_map, map_append, map_append,
      map_cons, map_cons, ih]

/-- Items are respelled one after another. -/
theorem respell_items (front : List Value) (h : ∀ v ∈ items, ReflTransGen Respells v v.canonical) :
    ReflTransGen Respells (.tuple (front ++ items)) (.tuple (front ++ items.map canonical)) := by
  induction items generalizing front with
  | nil => exact .refl
  | cons v items ih =>
    obtain ⟨hv, hitems⟩ := forall_mem_cons.mp h
    have hfirst : ReflTransGen Respells (.tuple (front ++ v :: items))
        (.tuple (front ++ v.canonical :: items)) :=
      ReflTransGen.lift (fun v ↦ tuple (front ++ v :: items))
        (fun _ _ hstep ↦ Respells.item front items hstep) _ _ hv
    have hrest := ih (front ++ [v.canonical]) hitems
    rw [append_assoc, append_assoc] at hrest
    exact hfirst.trans hrest

/-- A value comes to its canonical spelling step by step. -/
theorem respells_canonical (v : Value) : ReflTransGen Respells v v.canonical := by
  induction v using nested_induction with
  | float x =>
    rw [canonical_float]
    split
    next hnegative => exact .single (hnegative ▸ .sign)
    next => exact .refl
  | int | bool | zero => exact .refl
  | tuple items ih =>
    by_cases hne : items = []
    · subst hne
      exact .refl
    · rw [canonical_tuple hne]
      split
      next hzero => exact .single (.collapse hne hzero)
      next => exact respell_items [] ih

theorem eqvGen_respells_iff : EqvGen Respells v w ↔ v.canonical = w.canonical := by
  constructor
  · intro h
    induction h with
    | rel v w hstep => exact canonical_of_respells hstep
    | refl v => rfl
    | symm v w _ ih => exact ih.symm
    | trans v w u _ _ hfirst hlast => exact hfirst.trans hlast
  · intro h
    have hto (v : Value) : EqvGen Respells v v.canonical :=
      EqvGen.reflTransGen_le_eqvGen _ _ _ (respells_canonical v)
    exact (hto v).trans _ _ _ (h ▸ (hto w).symm)

/-- The canonical spelling is a normal form. It is its own spelling, it is a zero or a one exactly if
the value is, no zero with a sign and no nonempty aggregate of zeros stands in it, and values that
differ by respellings only are those that have it in common. -/
theorem canonical_normalForm (v : Value) :
    v.canonical.canonical = v.canonical ∧
      v.canonical.isZero = v.isZero ∧ v.canonical.isOne = v.isOne ∧
      (∀ part : Value, part.Within v.canonical → part ≠ .float .negativeZero ∧
        ∀ items, part = .tuple items → items ≠ [] → part.isZero = false) ∧
      ∀ w : Value, EqvGen Respells v w ↔ v.canonical = w.canonical := by
  refine ⟨canonical_canonical v, isZero_canonical v, isOne_canonical v, fun part h ↦ ?_,
    fun w ↦ eqvGen_respells_iff⟩
  obtain ⟨hne, hzero⟩ := within_canonical v h
  exact ⟨hne, fun items htuple hsome ↦ htuple ▸ hzero items htuple hsome⟩

end Value

end DiffGraph
