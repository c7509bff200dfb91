import DiffGraph.Proofs.Binary64.Rounding
import DiffGraph.Types.Conversion

/-!
Constants in the spelling of their type. A zero loses its sign before the number is rounded, so a
negative number that single precision rounds to zero is stored as the zero with a sign. This is the
only constant that is not its own spelling (`TypeDefinition.normalize_normalize`), and no other type
stores it (`TypeDefinition.normalize_eq_negativeZero_iff`): integers are never rounded to zero
(`Binary64.magnitude_nearest_ne_zero`).
-/

set_option autoImplicit false

namespace DiffGraph

namespace FloatGrid

variable {grid : FloatGrid} {m : Nat} {e : Int}

theorem div_le_roundHalfEven (n d : Nat) : n / d ≤ roundHalfEven n d := by
  unfold roundHalfEven
  dsimp only
  split <;> omega

/-- A number that is no smaller than the least unit is not rounded to zero. -/
theorem round_ne_zero (hpc : 0 < grid.precision) (hleast : grid.leastUnit ≤ e) (hm : m ≠ 0) :
    grid.round m e ≠ 0 := by
  rcases le_or_gt (grid.unit m e) e with hcoarse | hfine
  · rw [round_of_unit_le grid hcoarse]
    positivity
  · have hunit : grid.unit m e = bitLength m + e - grid.precision := by
      unfold unit at hfine ⊢
      omega
    have hdivisor : 2 ^ (grid.unit m e - e).toNat ≤ m := by
      refine not_lt.mp fun hless ↦ ?_
      have hshort := bitLength_le_iff.mpr hless
      omega
    have hpositive : 0 < m / 2 ^ (grid.unit m e - e).toNat :=
      Nat.div_pos hdivisor (Nat.two_pow_pos _)
    rw [round_of_lt_unit grid hfine]
    exact (hpositive.trans_le (div_le_roundHalfEven _ _)).ne'

end FloatGrid

namespace Binary64

open FloatGrid

variable {x : Binary64} {m : Nat} {e : Int}

/-- The zero with a sign. -/
def negativeZero : Binary64 := withSign true 0

theorem isZero_iff : x.isZero = true ↔ x = zero ∨ x = negativeZero := by
  constructor
  · intro hz
    have hmagnitude : x.bits.toNat % 2 ^ 63 = 0 := beq_iff_eq.mp hz
    have hless : x.bits.toNat < 2 ^ 64 := x.bits.toNat_lt
    obtain hbits | hbits : x.bits.toNat = 0 ∨ x.bits.toNat = 2 ^ 63 := by omega
    · exact .inl (congrArg mk (UInt64.toNat_inj.mp hbits))
    · exact .inr (congrArg mk (UInt64.toNat_inj.mp hbits))
  · rintro (rfl | rfl)
    · exact beq_iff_eq.mpr (magnitude_withSign false (Nat.two_pow_pos 63))
    · exact beq_iff_eq.mpr (magnitude_withSign true (Nat.two_pow_pos 63))

theorem magnitude_encode_ne_zero (negative : Bool) (hlow : -1021 < bitLength m + e)
    (hhigh : bitLength m + e ≤ 128) : (encode negative m e).magnitude ≠ 0 := by
  have hunit : FloatGrid.double.unit m e = Max.max ((bitLength m : Int) + e - 53) (-1074) := rfl
  have hround : FloatGrid.double.round m e ≤ 2 ^ 53 := FloatGrid.double.round_le m e
  have hword : encode negative m e = withSign negative
      ((FloatGrid.double.unit m e + 1074).toNat * 2 ^ 52 + FloatGrid.double.round m e) := rfl
  rw [hword, magnitude_withSign negative (by omega)]
  omega

/-- A whole number is not rounded to zero. -/
theorem magnitude_nearest_ne_zero {grid : FloatGrid} (negative : Bool)
    (hpc : 0 < grid.precision ∧ grid.precision ≤ 53) (hleast : grid.leastUnit ≤ 0)
    (hm : m ≠ 0) (hbits : bitLength m ≤ 64) : (nearest grid negative m 0).magnitude ≠ 0 := by
  have hcount := round_ne_zero hpc.1 hleast hm
  have hunit : grid.unit m 0 =
    Max.max ((bitLength m : Int) + 0 - grid.precision) grid.leastUnit := rfl
  have hlen : bitLength (grid.round m 0) ≤ grid.precision + 1 := by
    refine bitLength_le_iff.mpr ((grid.round_le m 0).trans_lt ?_)
    exact Nat.pow_lt_pow_right Nat.one_lt_two (Nat.lt_succ_self _)
  have hpositive := bitLength_pos hm
  have hpositive' := bitLength_pos hcount
  rw [nearest, if_neg hcount]
  split
  · rw [infinity, magnitude_withSign negative (by decide)]
    decide
  · exact magnitude_encode_ne_zero negative (by omega) (by omega)

theorem nearest_ne_negativeZero (grid : FloatGrid)
    (hpc : 0 < grid.precision ∧ grid.precision ≤ 53) (hleast : grid.leastUnit ≤ 0) {n : Int64}
    (hn : n ≠ 0) : nearest grid (n < 0) n.toInt.natAbs 0 ≠ negativeZero := by
  have hlow := n.le_toInt
  have hhigh := n.toInt_lt
  have hne : n.toInt.natAbs ≠ 0 := fun hz ↦ hn (Int64.toInt_inj.mp (Int.natAbs_eq_zero.mp hz))
  intro hnegative
  refine magnitude_nearest_ne_zero (n < 0) hpc hleast hne (bitLength_le_iff.mpr (by omega)) ?_
  rw [hnegative]
  exact magnitude_withSign true (Nat.two_pow_pos 63)

theorem ofInt64_ne_negativeZero (n : Int64) : ofInt64 n ≠ negativeZero := by
  rw [ofInt64]
  split
  · decide
  next hn => exact nearest_ne_negativeZero .double (by decide) (by decide) hn

theorem singleOfInt64_ne_negativeZero (n : Int64) : singleOfInt64 n ≠ negativeZero := by
  rw [singleOfInt64]
  split
  · decide
  next hn => exact nearest_ne_negativeZero .single (by decide) (by decide) hn

end Binary64

namespace Value

theorem canonical_float (x : Binary64) :
    (float x).canonical = if x = .negativeZero then .float .zero else .float x := by
  rw [canonical]
  by_cases hz : x.isZero = true
  · rcases Binary64.isZero_iff.mp hz with rfl | rfl
    · rfl
    · rw [if_pos hz, if_pos rfl]
  · rw [if_neg hz, if_neg fun hnegative ↦ hz (Binary64.isZero_iff.mpr (.inr hnegative))]

mutual

theorem canonical_canonical : ∀ v : Value, v.canonical.canonical = v.canonical
  | .float x => by
    rw [canonical]
    by_cases hz : x.isZero = true
    · rw [if_pos hz]
      rfl
    · rw [if_neg hz, canonical, if_neg hz]
  | .tuple items => by
    rw [canonical]
    split
    · rfl
    next hz => rw [canonical, canonicalAll_canonicalAll items, if_neg hz]
  | .int _ | .bool _ | .zero => rfl

theorem canonicalAll_canonicalAll :
    ∀ items : List Value, canonicalAll (canonicalAll items) = canonicalAll items
  | [] => rfl
  | value :: values => by
    rw [canonicalAll, canonicalAll, canonical_canonical value, canonicalAll_canonicalAll values]

end

mutual

theorem isZero_canonical : ∀ v : Value, v.canonical.isZero = v.isZero
  | .float x => by
    rw [canonical]
    split
    next hz => exact hz.symm
    next => rfl
  | .tuple items => by
    have hits := allZero_canonicalAll items
    rw [canonical]
    split
    next hz =>
      rw [Bool.and_eq_true] at hz
      exact (hits.symm.trans hz.2).symm
    next => exact hits
  | .int _ | .bool _ | .zero => rfl

theorem allZero_canonicalAll : ∀ items : List Value, allZero (canonicalAll items) = allZero items
  | [] => rfl
  | value :: values => by
    rw [canonicalAll, allZero, allZero, isZero_canonical value, allZero_canonicalAll values]

end

theorem canonical_ne_negativeZero (v : Value) : v.canonical ≠ .float .negativeZero := by
  cases v with
  | float x =>
    rw [canonical_float]
    split
    · decide
    next hne => exact fun heq ↦ hne (float.inj heq)
  | tuple items =>
    rw [canonical]
    split <;> exact fun heq ↦ by cases heq
  | int | bool | zero => exact fun heq ↦ by cases heq

/-- Aggregates of the same size have one spelling if their items do, or if they are zeros. -/
theorem canonical_tuple_eq_iff {items others : List Value} (hlen : items.length = others.length) :
    (tuple items).canonical = (tuple others).canonical ↔
      canonicalAll items = canonicalAll others ∨ allZero items = true ∧ allZero others = true := by
  have hempty : (canonicalAll items).isEmpty = (canonicalAll others).isEmpty := by
    cases items <;> cases others <;> first | rfl | cases hlen
  rw [canonical, canonical, ← allZero_canonicalAll items, ← allZero_canonicalAll others, hempty]
  cases hno : (canonicalAll others).isEmpty with
  | true =>
    rw [List.isEmpty_iff] at hno
    have hnone' := List.isEmpty_iff.mp (hempty.trans (List.isEmpty_iff.mpr hno))
    rw [hno, hnone']
    simp
  | false =>
    cases hz : allZero (canonicalAll items) <;> cases ho : allZero (canonicalAll others) <;>
      simp
    · intro heq
      rw [heq, ho] at hz
      cases hz
    · intro heq
      rw [heq, ho] at hz
      cases hz

end Value

namespace Scalar

theorem normalize_normalize (kind : Scalar) (value : Value) :
    kind.normalize (kind.normalize value) = kind.normalize value := by
  cases kind with
  | double | integer | boolean => cases value <;> rfl
  | single =>
    cases value with
    | float x => exact congrArg Value.float (Binary64.toSingle_toSingle x)
    | int n => exact congrArg Value.float (Binary64.toSingle_singleOfInt64 n)
    | zero => exact congrArg Value.float Binary64.toSingle_zero
    | bool | tuple => rfl

theorem normalize_zero (kind : Scalar) : kind.normalize (.float .zero) = .float .zero := by
  cases kind with
  | single => exact congrArg Value.float Binary64.toSingle_zero
  | double | integer | boolean => rfl

/-- What is normalized has one spelling, the zero with a sign apart. -/
theorem canonical_normalize (kind : Scalar) {value : Value} (h : value.canonical = value) :
    (kind.normalize value).canonical =
      if kind.normalize value = .float .negativeZero then .float .zero else kind.normalize value := by
  have hkept {other : Value} (ho : other.canonical = other) : other.canonical =
      if other = .float .negativeZero then .float .zero else other := by
    rw [if_neg fun heq ↦ Value.canonical_ne_negativeZero other (ho.trans heq)]
    exact ho
  have hfloat (x : Binary64) : (Value.float x).canonical =
      if Value.float x = .float .negativeZero then .float .zero else .float x := by
    rw [Value.canonical_float]
    simp only [Value.float.injEq]
  cases value with
  | float x => cases kind <;> exact hfloat _
  | int n => cases kind <;> first | exact hfloat _ | exact hkept rfl
  | zero | bool => cases kind <;> exact hkept rfl
  | tuple items => cases kind <;> exact hkept h

/-- Only single precision has a number that is stored as the zero with a sign. -/
theorem normalize_eq_negativeZero_iff (kind : Scalar) (v : Value) :
    kind.normalize v.canonical = .float .negativeZero ↔
      kind = .single ∧ ∃ x : Binary64, v = .float x ∧ x.isZero = false ∧
        x.toSingle = .negativeZero := by
  constructor
  · intro hnegative
    have hne := Value.canonical_ne_negativeZero v
    cases v with
    | float x =>
      rw [Value.canonical] at hnegative hne
      split at hnegative
      next hz =>
        rw [normalize_zero] at hnegative
        exact absurd hnegative (by decide)
      next hz =>
        rw [if_neg hz] at hne
        cases kind with
        | single => exact ⟨rfl, x, rfl, Bool.eq_false_iff.mpr hz, Value.float.inj hnegative⟩
        | double | integer | boolean => exact absurd hnegative hne
    | int n =>
      cases kind with
      | double => exact absurd (Value.float.inj hnegative) (Binary64.ofInt64_ne_negativeZero n)
      | single => exact absurd (Value.float.inj hnegative) (Binary64.singleOfInt64_ne_negativeZero n)
      | integer | boolean => cases hnegative
    | bool b => cases kind <;> cases hnegative
    | zero => cases kind <;> exact absurd hnegative (by decide)
    | tuple items =>
      have hkept : kind.normalize (Value.tuple items).canonical = (Value.tuple items).canonical ∨
          (Value.tuple items).canonical = .zero := by
        rw [Value.canonical]
        split
        · exact .inr rfl
        · exact .inl (by cases kind <;> rfl)
      rcases hkept with hsame | hz
      · exact absurd (hsame.symm.trans hnegative) hne
      · rw [hz] at hnegative
        cases kind <;> exact absurd hnegative (by decide)
  · rintro ⟨rfl, x, rfl, hz, hsg⟩
    rw [Value.canonical, if_neg (Bool.eq_false_iff.mp hz)]
    exact congrArg Value.float hsg

end Scalar

namespace TypeDefinition

/-- Normalizing once more takes the sign from a zero and changes nothing else. -/
theorem normalize_normalize (defn : TypeDefinition) (value : Value) :
    defn.normalize (defn.normalize value) =
      if defn.normalize value = .float .negativeZero then .float .zero
      else defn.normalize value := by
  cases hsh : defn.shape with
  | scalar kind =>
    simp only [normalize, hsh]
    rw [kind.canonical_normalize value.canonical_canonical]
    split
    · exact kind.normalize_zero
    · exact kind.normalize_normalize _
  | record | template | abstract =>
    simp only [normalize, hsh]
    rw [if_neg (Value.canonical_ne_negativeZero value)]
    exact value.canonical_canonical

theorem normalize_eq_negativeZero_iff (defn : TypeDefinition) (v : Value) :
    defn.normalize v = .float .negativeZero ↔ defn.shape = .scalar .single ∧
      ∃ x : Binary64, v = .float x ∧ x.isZero = false ∧ x.toSingle = .negativeZero := by
  cases hsh : defn.shape with
  | scalar kind =>
    simp only [normalize, hsh, Shape.scalar.injEq]
    exact kind.normalize_eq_negativeZero_iff v
  | record | template | abstract =>
    simp only [normalize, hsh]
    constructor
    · intro heq
      exact absurd heq (Value.canonical_ne_negativeZero v)
    · rintro ⟨hsg, -⟩
      cases hsg

end TypeDefinition

end DiffGraph
