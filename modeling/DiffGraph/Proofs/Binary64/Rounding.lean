import Mathlib.Algebra.Order.Ring.Nat
import Mathlib.Tactic.Positivity
import Mathlib.Tactic.Ring
import DiffGraph.Binary64.Rounding

/-!
Rounding to single precision. Rounding depends only on the number `m * 2 ^ e`, not on how it is
split into `m` and `e`; a number of the coarser grid is its own nearest number, and a finite word is
read back as the number it was made from. So rounding to single precision twice is rounding once
(`toSingle_toSingle`).
-/

set_option autoImplicit false

namespace DiffGraph

variable {m : Nat} {e : Int}

namespace FloatGrid

theorem bitLength_le_iff {n k : Nat} : bitLength n ≤ k ↔ n < 2 ^ k := by
  unfold bitLength
  split
  next hz =>
    subst hz
    simp
  next hz => rw [Nat.succ_le_iff, Nat.log2_lt hz]

theorem bitLength_pos {n : Nat} (h : n ≠ 0) : 0 < bitLength n := by
  rw [bitLength, if_neg h]
  exact Nat.succ_pos _

theorem bitLength_mul_pow (h : m ≠ 0) (j : Nat) : bitLength (m * 2 ^ j) = bitLength m + j := by
  refine eq_of_forall_ge_iff fun k ↦ ?_
  rw [bitLength_le_iff]
  by_cases hk : j ≤ k
  · obtain ⟨i, rfl⟩ := Nat.exists_eq_add_of_le' hk
    rw [pow_add, Nat.mul_lt_mul_right (Nat.two_pow_pos j), ← bitLength_le_iff]
    omega
  · have hlarge : 2 ^ k < m * 2 ^ j := calc
      2 ^ k < 2 ^ j := Nat.pow_lt_pow_right Nat.one_lt_two (by omega)
      _ ≤ m * 2 ^ j := Nat.le_mul_of_pos_left _ (Nat.pos_of_ne_zero h)
    omega

theorem roundHalfEven_mul_self (q : Nat) {d : Nat} (hd : 0 < d) : roundHalfEven (q * d) d = q := by
  unfold roundHalfEven
  rw [Nat.mul_div_cancel q hd, Nat.mul_mod_left]
  dsimp only
  rw [if_neg]
  omega

theorem roundHalfEven_mul_right (n d : Nat) {c : Nat} (hc : 0 < c) :
    roundHalfEven (n * c) (d * c) = roundHalfEven n d := by
  unfold roundHalfEven
  rw [Nat.mul_div_mul_right n d hc, Nat.mul_mod_mul_right, ← Nat.mul_assoc]
  have hless : d * c < 2 * (n % d) * c ↔ d < 2 * (n % d) := Nat.mul_lt_mul_right hc
  have hsame : 2 * (n % d) * c = d * c ↔ 2 * (n % d) = d := Nat.mul_left_inj hc.ne'
  simp only [hless, hsame]

theorem roundHalfEven_le (n d : Nat) : roundHalfEven n d ≤ n / d + 1 := by
  unfold roundHalfEven
  dsimp only
  split <;> omega

variable (grid : FloatGrid)

theorem round_zero (e : Int) : grid.round 0 e = 0 := by
  rw [round]
  split
  · exact zero_mul _
  · simp [roundHalfEven]

/-- The unit depends on the number only. -/
theorem unit_mul_pow (h : m ≠ 0) (j : Nat) (e : Int) :
    grid.unit (m * 2 ^ j) e = grid.unit m (e + j) := by
  rw [unit, unit, bitLength_mul_pow h]
  push_cast
  congr 1
  omega

theorem round_of_unit_le (h : grid.unit m e ≤ e) :
    grid.round m e = m * 2 ^ (e - grid.unit m e).toNat := by
  rw [round, if_pos h]
  rfl

theorem round_of_lt_unit (h : e < grid.unit m e) :
    grid.round m e = roundHalfEven m (2 ^ (grid.unit m e - e).toNat) := by
  rw [round, if_neg (not_le.mpr h)]
  rfl

/-- The count of units depends on the number only. -/
theorem round_mul_pow (h : m ≠ 0) (j : Nat) (e : Int) :
    grid.round (m * 2 ^ j) e = grid.round m (e + j) := by
  have hunit := grid.unit_mul_pow h j e
  rcases le_or_gt (grid.unit m (e + j)) e with hcoarse | hfine
  · rw [round_of_unit_le grid (hunit.le.trans hcoarse), round_of_unit_le grid (by omega), hunit,
      mul_assoc, ← pow_add]
    congr 2
    omega
  · rw [round_of_lt_unit grid (hunit ▸ hfine), hunit]
    rcases le_or_gt (grid.unit m (e + j)) (e + j) with hbetween | hbl
    · rw [round_of_unit_le grid hbetween]
      obtain ⟨i, hi⟩ : ∃ i, j = i + (grid.unit m (e + j) - e).toNat :=
        ⟨j - (grid.unit m (e + j) - e).toNat, by omega⟩
      have hexponent : (e + j - grid.unit m (e + j)).toNat = i := by omega
      have hpower : (2 : Nat) ^ j = 2 ^ i * 2 ^ (grid.unit m (e + j) - e).toNat := by
        rw [← pow_add, ← hi]
      rw [hexponent, hpower, ← mul_assoc]
      exact roundHalfEven_mul_self _ (Nat.two_pow_pos _)
    · rw [round_of_lt_unit grid hbl]
      have hpower : (2 : Nat) ^ (grid.unit m (e + j) - e).toNat =
          2 ^ (grid.unit m (e + j) - (e + j)).toNat * 2 ^ j := by
        rw [← pow_add]
        congr 1
        omega
      rw [hpower]
      exact roundHalfEven_mul_right _ _ (Nat.two_pow_pos j)

theorem leastUnit_le_unit (m : Nat) (e : Int) : grid.leastUnit ≤ grid.unit m e := le_max_right _ _

/-- A significand has no more bits than the grid allows, or it is the power of two that follows. -/
theorem round_le (m : Nat) (e : Int) : grid.round m e ≤ 2 ^ grid.precision := by
  have hunit : bitLength m + e - grid.precision ≤ grid.unit m e := le_max_left _ _
  have hm : m < 2 ^ bitLength m := bitLength_le_iff.mp le_rfl
  rcases le_or_gt (grid.unit m e) e with hcoarse | hfine
  · rw [round_of_unit_le grid hcoarse]
    calc m * 2 ^ (e - grid.unit m e).toNat
        ≤ 2 ^ bitLength m * 2 ^ (e - grid.unit m e).toNat := Nat.mul_le_mul_right _ hm.le
      _ = 2 ^ (bitLength m + (e - grid.unit m e).toNat) := (pow_add _ _ _).symm
      _ ≤ 2 ^ grid.precision := Nat.pow_le_pow_right Nat.two_pos (by omega)
  · rw [round_of_lt_unit grid hfine]
    refine (roundHalfEven_le _ _).trans (Nat.succ_le_of_lt ?_)
    rw [Nat.div_lt_iff_lt_mul (Nat.two_pow_pos _), ← pow_add]
    exact hm.trans_le (Nat.pow_le_pow_right Nat.two_pos (by omega))

/-- A number with few enough bits is on the grid: rounding splits it in another way at most. -/
theorem round_exact (hpc : 0 < grid.precision) (hbits : m ≤ 2 ^ grid.precision)
    (hunit : grid.leastUnit ≤ e) :
    (∃ k : Nat, grid.unit m e + k = e ∧ grid.round m e = m * 2 ^ k) ∨
      ∃ k : Nat, grid.unit m e = e + k ∧ m = grid.round m e * 2 ^ k := by
  rcases le_or_gt (grid.unit m e) e with hcoarse | hfine
  · exact .inl ⟨(e - grid.unit m e).toNat, by omega, round_of_unit_le grid hcoarse⟩
  · -- Only the power of two that follows the last significand has one bit too many.
    have hlen : grid.precision < bitLength m := by
      unfold unit at hfine
      omega
    have hm : m = 2 ^ grid.precision := by
      refine le_antisymm hbits (not_lt.mp fun hlt ↦ ?_)
      exact absurd (bitLength_le_iff.mpr hlt) (not_le.mpr hlen)
    obtain ⟨p, hp⟩ : ∃ p, grid.precision = p + 1 := ⟨grid.precision - 1, by omega⟩
    have hbitLength : bitLength m = grid.precision + 1 := by
      have htwo := bitLength_mul_pow one_ne_zero grid.precision
      rw [one_mul, ← hm] at htwo
      rw [htwo, show bitLength 1 = 1 from rfl, add_comm]
    have hnx : grid.unit m e = e + (1 : Nat) := by
      unfold unit
      omega
    have hround : grid.round m e = 2 ^ p := by
      rw [round_of_lt_unit grid hfine, hnx, add_sub_cancel_left, Int.toNat_natCast, hm, hp,
        pow_succ, pow_one]
      exact roundHalfEven_mul_self _ Nat.two_pos
    exact .inr ⟨1, hnx, by rw [hround, hm, hp, pow_succ, pow_one]⟩

end FloatGrid

namespace Binary64

open FloatGrid Nat

section Words

variable (negative : Bool)

theorem toNat_withSign (h : m < 2 ^ 63) :
    (withSign negative m).bits.toNat = if negative then 2 ^ 63 + m else m := by
  rw [withSign, UInt64.toNat_ofNat']
  refine mod_eq_of_lt ?_
  split
  · show 2 ^ 63 + m < 2 ^ 64
    omega
  · omega

theorem magnitude_withSign (h : m < 2 ^ 63) : (withSign negative m).magnitude = m := by
  rw [magnitude, toNat_withSign negative h]
  show _ % 2 ^ 63 = m
  split
  · rw [add_mod_left, mod_eq_of_lt h]
  · exact mod_eq_of_lt h

theorem isNegative_withSign (h : m < 2 ^ 63) : (withSign negative m).isNegative = negative := by
  rw [isNegative, toNat_withSign negative h]
  show decide (2 ^ 63 ≤ _) = negative
  cases negative with
  | false => simpa using h
  | true => simp

variable {x : Binary64}

theorem significand_of_le (h : 2 ^ 52 ≤ x.magnitude) :
    x.significand = 2 ^ 52 + x.magnitude % 2 ^ 52 :=
  if_neg (not_lt.mpr h)

theorem exponent_of_le (h : 2 ^ 52 ≤ x.magnitude) :
    x.exponent = (x.magnitude / 2 ^ 52 : Nat) - 1075 := by
  show ((Max.max (x.magnitude / 2 ^ 52) 1 : Nat) : Int) - 1075 = _
  omega

theorem toSingle_of_lt (h : x.magnitude < infiniteMagnitude) :
    x.toSingle = nearest .single x.isNegative x.significand x.exponent :=
  if_pos (decide_eq_true h)

theorem toSingle_withSign_zero : (withSign negative 0).toSingle = withSign negative 0 := by
  have hmagnitude : (withSign negative 0).magnitude = 0 := magnitude_withSign negative (by decide)
  have hsignificand : (withSign negative 0).significand = 0 := by
    rw [significand, hmagnitude]
    rfl
  have hexponent : (withSign negative 0).exponent = -1074 := by
    rw [exponent, hmagnitude]
    rfl
  rw [toSingle_of_lt (by rw [hmagnitude]; decide), isNegative_withSign negative (by decide),
    hsignificand, hexponent, nearest, round_zero]
  rfl

theorem toSingle_zero : zero.toSingle = zero := toSingle_withSign_zero false

end Words

section Encoding

variable {negative : Bool}

theorem encode_mul_pow (negative : Bool) (h : m ≠ 0) (j : Nat) (e : Int) :
    encode negative (m * 2 ^ j) e = encode negative m (e + j) := by
  rw [encode, encode, unit_mul_pow _ h, round_mul_pow _ h]

theorem nearest_mul_pow (grid : FloatGrid) (negative : Bool) (h : m ≠ 0) (j : Nat) (e : Int) :
    nearest grid negative (m * 2 ^ j) e = nearest grid negative m (e + j) := by
  rw [nearest, nearest, unit_mul_pow _ h, round_mul_pow _ h]

/-- The word of a number that is not too small has a significand of full length. -/
theorem encode_eq_withSign (negative : Bool) (hm : m ≠ 0) (hbits : bitLength m ≤ 53)
    (hlow : -1074 ≤ bitLength m + e - 53) (hhigh : bitLength m + e ≤ 128) :
    ∃ fraction, fraction < 2 ^ 52 ∧ m * 2 ^ (53 - bitLength m) = 2 ^ 52 + fraction ∧
      encode negative m e =
        withSign negative ((bitLength m + e + 1022).toNat * 2 ^ 52 + fraction) := by
  have hunit : FloatGrid.double.unit m e = bitLength m + e - 53 := by
    show Max.max ((bitLength m : Int) + e - (53 : Nat)) (-1074) = _
    omega
  have hround : FloatGrid.double.round m e = m * 2 ^ (53 - bitLength m) := by
    rw [round_of_unit_le _ (by rw [hunit]; omega), hunit]
    congr 2
    omega
  have hlen : bitLength (m * 2 ^ (53 - bitLength m)) = 53 := by
    rw [bitLength_mul_pow hm]
    omega
  have hless : m * 2 ^ (53 - bitLength m) < 2 ^ 53 := bitLength_le_iff.mp hlen.le
  have hmore : 2 ^ 52 ≤ m * 2 ^ (53 - bitLength m) := by
    refine not_lt.mp fun hlt ↦ ?_
    have hshort := bitLength_le_iff.mpr hlt
    omega
  refine ⟨m * 2 ^ (53 - bitLength m) - 2 ^ 52, by omega, by omega, ?_⟩
  have hword : encode negative m e = withSign negative
      ((FloatGrid.double.unit m e + 1074).toNat * 2 ^ 52 + FloatGrid.double.round m e) := rfl
  rw [hword, hunit, hround]
  refine congrArg (withSign negative) ?_
  omega

/-- A word is read back as the number that it was made from. -/
theorem toSingle_encode (hm : m ≠ 0) (hbits : bitLength m ≤ 53)
    (hlow : -1074 ≤ bitLength m + e - 53) (hhigh : bitLength m + e ≤ 128) :
    (encode negative m e).toSingle = nearest .single negative m e := by
  obtain ⟨fraction, hfraction, hsignificand, hencode⟩ :=
    encode_eq_withSign negative hm hbits hlow hhigh
  obtain ⟨field, hfd⟩ : ∃ field, (bitLength m + e + 1022).toNat = field + 1 :=
    ⟨(bitLength m + e + 1021).toNat, by omega⟩
  rw [hfd] at hencode
  have hword : (field + 1) * 2 ^ 52 + fraction < 2 ^ 63 := by omega
  have hquotient : ((field + 1) * 2 ^ 52 + fraction) / 2 ^ 52 = field + 1 := by omega
  have hrs : ((field + 1) * 2 ^ 52 + fraction) % 2 ^ 52 = fraction := by omega
  have hmagnitude := magnitude_withSign negative hword
  have hnormal : 2 ^ 52 ≤ (encode negative m e).magnitude := by
    rw [hencode, hmagnitude]
    omega
  have hfinite : (encode negative m e).magnitude < infiniteMagnitude := by
    rw [hencode, hmagnitude, infiniteMagnitude]
    omega
  rw [toSingle_of_lt hfinite, significand_of_le hnormal, exponent_of_le hnormal, hencode,
    hmagnitude, isNegative_withSign negative hword, hrs, hquotient, ← hsignificand,
    nearest_mul_pow _ _ hm]
  congr 1
  omega

/-- A number of single precision is the nearest one to itself. -/
theorem toSingle_nearest (negative : Bool) (m : Nat) (e : Int) :
    (nearest .single negative m e).toSingle = nearest .single negative m e := by
  have hround := FloatGrid.single.round_le m e
  have hunit := FloatGrid.single.leastUnit_le_unit m e
  rw [nearest]
  generalize FloatGrid.single.round m e = count at hround
  generalize FloatGrid.single.unit m e = unit at hunit
  have hinfinite : infiniteMagnitude < 2 ^ 63 := by decide
  split
  next =>
    rw [infinity, toSingle, isFinite, isNaN, magnitude_withSign _ hinfinite]
    rfl
  next hsmall =>
    split
    next => exact toSingle_withSign_zero negative
    next hcount =>
      change count ≤ 2 ^ 24 at hround
      change -149 ≤ unit at hunit
      change ¬(128 < (bitLength count : Int) + unit) at hsmall
      have hpositive := bitLength_pos hcount
      have hlen : bitLength count ≤ 25 := bitLength_le_iff.mpr (by omega)
      rw [toSingle_encode hcount (by omega) (by omega) (by omega), nearest]
      rcases FloatGrid.single.round_exact (by decide) hround hunit with
        ⟨k, hk, hcount'⟩ | ⟨k, hk, hcount'⟩
      · have hsum : (bitLength (FloatGrid.single.round count unit) : Int) +
            FloatGrid.single.unit count unit = bitLength count + unit := by
          rw [hcount', bitLength_mul_pow hcount]
          omega
        rw [if_neg (by rw [hsum]; exact hsmall), if_neg (by rw [hcount']; positivity), hcount',
          encode_mul_pow _ hcount, hk]
      · have hne : FloatGrid.single.round count unit ≠ 0 := by
          intro hz
          rw [hz, zero_mul] at hcount'
          exact hcount hcount'
        have hlengths : bitLength count = bitLength (FloatGrid.single.round count unit) + k := by
          rw [← bitLength_mul_pow hne, ← hcount']
        have hsum : (bitLength (FloatGrid.single.round count unit) : Int) +
            FloatGrid.single.unit count unit = bitLength count + unit := by omega
        rw [if_neg (by rw [hsum]; exact hsmall), if_neg hne, hk, ← encode_mul_pow _ hne, ← hcount']

/-- A quantity that is not a number keeps a fraction that single precision has room for. -/
theorem toSingle_quiet (negative : Bool) (n : Nat) :
    (quiet negative (n * 2 ^ 29)).toSingle = quiet negative (n * 2 ^ 29) := by
  obtain ⟨k, hk⟩ : ∃ k, n * 2 ^ 29 % 2 ^ 51 = k * 2 ^ 29 :=
    ⟨n % 2 ^ 22, by rw [show 2 ^ 51 = 2 ^ 22 * 2 ^ 29 by rfl, Nat.mul_mod_mul_right]⟩
  have hrs : k * 2 ^ 29 < 2 ^ 51 := hk ▸ Nat.mod_lt _ (Nat.two_pow_pos 51)
  have hquiet : quiet negative (n * 2 ^ 29) =
      withSign negative (0x7ff8000000000000 + k * 2 ^ 29) := by
    rw [← hk]
    rfl
  have hword : 0x7ff8000000000000 + k * 2 ^ 29 < 2 ^ 63 := by omega
  have hmagnitude := magnitude_withSign negative hword
  have hnan : infiniteMagnitude < (quiet negative (n * 2 ^ 29)).magnitude := by
    rw [hquiet, hmagnitude, infiniteMagnitude]
    omega
  have hisNaN : (quiet negative (n * 2 ^ 29)).isNaN = true := decide_eq_true hnan
  have hsg : (quiet negative (n * 2 ^ 29)).toSingle = quiet (quiet negative (n * 2 ^ 29)).isNegative
        ((quiet negative (n * 2 ^ 29)).magnitude / 2 ^ 29 * 2 ^ 29) :=
    (if_neg (by simpa [isFinite] using hnan.le)).trans (if_pos hisNaN)
  rw [hsg, hquiet, hmagnitude, isNegative_withSign negative hword]
  refine congrArg (withSign negative) ?_
  show 0x7ff8000000000000 + (0x7ff8000000000000 + k * 2 ^ 29) / 2 ^ 29 * 2 ^ 29 % 2 ^ 51 = _
  omega

theorem toSingle_toSingle (x : Binary64) : x.toSingle.toSingle = x.toSingle := by
  by_cases hfinite : x.isFinite = true
  · have hnearest : x.toSingle = nearest .single x.isNegative x.significand x.exponent :=
      if_pos hfinite
    rw [hnearest]
    exact toSingle_nearest _ _ _
  by_cases hnan : x.isNaN = true
  · have hquiet : x.toSingle = quiet x.isNegative (x.magnitude / 2 ^ 29 * 2 ^ 29) :=
      (if_neg hfinite).trans (if_pos hnan)
    rw [hquiet]
    exact toSingle_quiet _ _
  · have hsame : x.toSingle = x := (if_neg hfinite).trans (if_neg hnan)
    rw [hsame, hsame]

theorem toSingle_singleOfInt64 (n : Int64) : (singleOfInt64 n).toSingle = singleOfInt64 n := by
  rw [singleOfInt64]
  split
  · exact toSingle_withSign_zero false
  · exact toSingle_nearest _ _ _

end Encoding

end Binary64

end DiffGraph
