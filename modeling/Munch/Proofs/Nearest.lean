import Mathlib.Algebra.Order.Ring.Abs
import Munch.Proofs.Rounding

/-!
# The nearest number

The value of a number is its significand times a power of two, with its sign. A finite number
without sign is nearest to a value exactly if the value rounds to its magnitude, as long as the
value is below the halfway point to infinity. So no more than one such number is nearest.

## Main definitions

* `Binary64.significand`, `Binary64.value`: what the bits of a finite number stand for.
* `Binary64.IsNearest`: a number is nearest to a value among all that are finite.
-/
namespace Munch.Binary64

variable {v : ℚ} {m m' : Nat} {d e : Binary64}

/-! ## Values -/

/-- The fraction bits behind a leading one, which a number with no exponent bits lacks. -/
def significand (d : Binary64) : Nat :=
  if d.magnitude / 2 ^ 52 = 0 then d.magnitude % 2 ^ 52 else 2 ^ 52 + d.magnitude % 2 ^ 52

/-- The value of a finite number. Without exponent bits the exponent is that of the least one. -/
def value (d : Binary64) : ℚ :=
  (if d.isNegative then -1 else 1) * d.significand *
    2 ^ (((max 1 (d.magnitude / 2 ^ 52) : Nat) : Int) - 1075)

theorem unitsPerOne_eq : (unitsPerOne : ℚ) = 2 ^ 1074 := by
  unfold unitsPerOne
  generalize 1074 = n
  rw [Nat.pow_eq, Nat.cast_pow, Nat.cast_ofNat]

theorem units_magnitude (d : Binary64) :
    units d.magnitude = d.significand * 2 ^ (max 1 (d.magnitude / 2 ^ 52) - 1) := by
  rw [units_eq, significand]
  split
  · rename_i h0
    rw [h0, max_eq_left (by decide), Nat.sub_self, Nat.pow_zero, Nat.mul_one]
  · rename_i h0
    rw [max_eq_right (Nat.one_le_iff_ne_zero.2 h0)]

theorem value_eq (d : Binary64) :
    d.value = (if d.isNegative then -1 else 1) * magnitudeValue d.magnitude := by
  obtain ⟨k, hk⟩ : ∃ k, max 1 (d.magnitude / 2 ^ 52) = k + 1 :=
    Nat.exists_eq_succ_of_ne_zero (by omega)
  have hexponent : ((k + 1 : Nat) : Int) - 1075 = (k : Int) - (1074 : Nat) := by omega
  rw [value, magnitudeValue, units_magnitude, unitsPerOne_eq, hk, hexponent,
    zpow_sub₀ (by norm_num), zpow_natCast, zpow_natCast, Nat.add_sub_cancel]
  generalize (2 : ℚ) ^ 1074 = p
  rw [Nat.cast_mul, Nat.cast_pow, Nat.cast_ofNat]
  ring

theorem value_of_isNegative (h : d.isNegative = true) :
    d.value = -magnitudeValue d.magnitude := by
  simp [value_eq, h]

theorem value_of_not_isNegative (h : d.isNegative = false) :
    d.value = magnitudeValue d.magnitude := by
  simp [value_eq, h]

theorem even_significand_iff (d : Binary64) : Even d.significand ↔ d.magnitude % 2 = 0 := by
  rw [Nat.even_iff, significand]
  split <;> omega

/-! ## Distances -/

section Distance

variable {a b : ℚ}

/-- Of two values the greater one is no farther from what lies behind the halfway point. -/
theorem abs_sub_le_iff_of_lt (h : a < b) : |v - b| ≤ |v - a| ↔ a + b ≤ 2 * v := by
  have hfactor : (v - a) ^ 2 - (v - b) ^ 2 = (b - a) * (2 * v - (a + b)) := by ring
  rw [← sq_le_sq, ← sub_nonneg, hfactor, mul_nonneg_iff_of_pos_left (sub_pos.2 h), sub_nonneg]

theorem abs_sub_le_iff_of_gt (h : a < b) : |v - a| ≤ |v - b| ↔ 2 * v ≤ a + b := by
  have hfactor : (v - b) ^ 2 - (v - a) ^ 2 = (b - a) * (a + b - 2 * v) := by ring
  rw [← sq_le_sq, ← sub_nonneg, hfactor, mul_nonneg_iff_of_pos_left (sub_pos.2 h), sub_nonneg]

/-- No other magnitude is nearer than the one to which a value rounds. -/
theorem RoundsTo.abs_sub_le (h : RoundsTo v m) (m' : Nat) :
    |v - magnitudeValue m| ≤ |v - magnitudeValue m'| := by
  obtain ⟨hlow, hhigh⟩ := h.value_bounds
  rcases Nat.lt_trichotomy m' m with hlt | rfl | hgt
  · have hpred := magnitudeValue_strictMono.monotone (show m' ≤ m - 1 by omega)
    rw [abs_sub_le_iff_of_lt (magnitudeValue_strictMono hlt)]
    linarith
  · exact le_rfl
  · have hsucc := magnitudeValue_strictMono.monotone (show m + 1 ≤ m' from hgt)
    rw [abs_sub_le_iff_of_gt (magnitudeValue_strictMono hgt)]
    linarith

/-- Nothing else is as near as an odd magnitude to which a value rounds. -/
theorem RoundsTo.abs_sub_lt (h : RoundsTo v m) (hm : m % 2 ≠ 0) (hne : m' ≠ m) :
    |v - magnitudeValue m| < |v - magnitudeValue m'| := by
  obtain ⟨hlow, hhigh⟩ := h.value_bounds_of_odd hm
  rcases Nat.lt_or_gt_of_ne hne with hlt | hgt
  · have hpred := magnitudeValue_strictMono.monotone (show m' ≤ m - 1 by omega)
    rw [← not_le, abs_sub_le_iff_of_gt (magnitudeValue_strictMono hlt)]
    linarith
  · have hsucc := magnitudeValue_strictMono.monotone (show m + 1 ≤ m' from hgt)
    rw [← not_le, abs_sub_le_iff_of_lt (magnitudeValue_strictMono hgt)]
    linarith

end Distance

/-! ## The nearest number -/

/-- The number is finite, no finite number is nearer to the value, and if another one is as near the
significand is even. -/
structure IsNearest (v : ℚ) (d : Binary64) : Prop where
  isFinite : d.isFinite = true
  abs_le : ∀ e : Binary64, e.isFinite = true → |v - d.value| ≤ |v - e.value|
  even : ∀ e : Binary64, e.isFinite = true → e.value ≠ d.value →
    |v - e.value| = |v - d.value| → Even d.significand

theorem isFinite_iff : d.isFinite = true ↔ d.magnitude < infinity := decide_eq_true_iff

/-- A number with a sign is no nearer to a value that is not negative than zero is. -/
theorem le_abs_sub_of_isNegative (hv : 0 ≤ v) (he : e.isNegative = true) : v ≤ |v - e.value| := by
  have hmagnitude := magnitudeValue_nonneg e.magnitude
  rw [value_of_isNegative he, abs_of_nonneg (by linarith)]
  linarith

theorem isNearest_of_roundsTo (hv : 0 ≤ v) (hd : d.isNegative = false)
    (hm : d.magnitude < infinity) (h : RoundsTo v d.magnitude) : IsNearest v d := by
  have hzero : |v - magnitudeValue 0| = v := by
    rw [magnitudeValue_zero, sub_zero, abs_of_nonneg hv]
  refine ⟨isFinite_iff.2 hm, fun e _ => ?_, fun e _ hne heq => ?_⟩
  · rw [value_of_not_isNegative hd]
    cases he : e.isNegative with
    | false => exact value_of_not_isNegative he ▸ h.abs_sub_le _
    | true => exact (h.abs_sub_le 0).trans (hzero.le.trans (le_abs_sub_of_isNegative hv he))
  · rw [even_significand_iff]
    by_contra hodd
    rw [value_of_not_isNegative hd] at hne heq
    cases he : e.isNegative with
    | false =>
      rw [value_of_not_isNegative he] at hne heq
      exact absurd heq (h.abs_sub_lt hodd fun hm => hne (congrArg magnitudeValue hm)).ne'
    | true =>
      have hlt := h.abs_sub_lt hodd (show 0 ≠ d.magnitude by omega)
      exact absurd heq (hlt.trans_le (hzero.le.trans (le_abs_sub_of_isNegative hv he))).ne'

theorem IsNearest.abs_sub_le (h : IsNearest v d) (hd : d.isNegative = false) (hm : m < infinity) :
    |v - magnitudeValue d.magnitude| ≤ |v - magnitudeValue m| := by
  have hle := h.abs_le (ofMagnitude m) (isFinite_ofMagnitude hm)
  rwa [value_of_not_isNegative hd, value_of_not_isNegative (isNegative_ofMagnitude hm),
    magnitude_ofMagnitude hm] at hle

theorem IsNearest.abs_sub_lt (h : IsNearest v d) (hd : d.isNegative = false) (hm : m < infinity)
    (hne : m ≠ d.magnitude) (hodd : d.magnitude % 2 ≠ 0) :
    |v - magnitudeValue d.magnitude| < |v - magnitudeValue m| := by
  refine lt_of_le_of_ne (h.abs_sub_le hd hm) fun heq => hodd ?_
  have heven := h.even (ofMagnitude m) (isFinite_ofMagnitude hm)
  rw [value_of_not_isNegative hd, value_of_not_isNegative (isNegative_ofMagnitude hm),
    magnitude_ofMagnitude hm] at heven
  exact (even_significand_iff d).1
    (heven (fun h => hne (magnitudeValue_strictMono.injective h)) heq.symm)

theorem roundsTo_of_isNearest (hv : 0 ≤ v) (hlimit : v < 2 ^ 1024 - 2 ^ 970)
    (hd : d.isNegative = false) (h : IsNearest v d) : RoundsTo v d.magnitude := by
  have hm := isFinite_iff.1 h.isFinite
  have hpred (h0 : d.magnitude ≠ 0) : magnitudeValue (d.magnitude - 1) <
      magnitudeValue d.magnitude := magnitudeValue_strictMono (Nat.sub_one_lt h0)
  have hsucc := magnitudeValue_strictMono (Nat.lt_succ_self d.magnitude)
  -- Above the greatest finite number stands the limit instead of a neighbour.
  have hlast (heq : ¬ d.magnitude + 1 < infinity) :
      2 * v < magnitudeValue d.magnitude + magnitudeValue (d.magnitude + 1) := by
    have hinfinity := magnitudeValue_infinity
    generalize (2 : ℚ) ^ 1024 - 2 ^ 970 = limit at hlimit hinfinity
    have hend : infinity = d.magnitude + 1 := by omega
    rw [hend, Nat.add_sub_cancel] at hinfinity
    linarith
  rw [roundsTo_iff]
  split
  · constructor
    · by_cases h0 : d.magnitude = 0
      · simpa [h0, magnitudeValue_zero] using hv
      · rw [← abs_sub_le_iff_of_lt (hpred h0)]
        exact h.abs_sub_le hd (by omega)
    · by_cases heq : d.magnitude + 1 < infinity
      · rw [← abs_sub_le_iff_of_gt hsucc]
        exact h.abs_sub_le hd heq
      · exact (hlast heq).le
  · rename_i hodd
    constructor
    · rw [← not_le, ← abs_sub_le_iff_of_gt (hpred (by omega)), not_le]
      exact h.abs_sub_lt hd (by omega) (by omega) hodd
    · by_cases heq : d.magnitude + 1 < infinity
      · rw [← not_le, ← abs_sub_le_iff_of_lt hsucc, not_le]
        exact h.abs_sub_lt hd heq (by omega) hodd
      · exact hlast heq

/-- Below the halfway point to infinity the nearest number without sign is the one to which the
value rounds. -/
theorem isNearest_iff (hv : 0 ≤ v) (hlimit : v < 2 ^ 1024 - 2 ^ 970) (hd : d.isNegative = false) :
    IsNearest v d ↔ d.magnitude < infinity ∧ RoundsTo v d.magnitude :=
  ⟨fun h => ⟨isFinite_iff.1 h.isFinite, roundsTo_of_isNearest hv hlimit hd h⟩,
    fun ⟨hm, h⟩ => isNearest_of_roundsTo hv hd hm h⟩

end Munch.Binary64
