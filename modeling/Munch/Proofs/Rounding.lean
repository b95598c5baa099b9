import Mathlib.Algebra.Order.Field.Power
import Mathlib.Data.Rat.Cast.Order
import Mathlib.Tactic.Linarith
import Mathlib.Tactic.NormNum
import Mathlib.Tactic.Positivity
import Mathlib.Tactic.Ring
import Munch.Binary64.Nearest

/-!
# Rounding to binary64

A rational number rounds to a magnitude if it is no farther from it than halfway to either
neighbour; halfway itself belongs to the even magnitude. So it rounds to one magnitude only, which
does not fall as the number grows, and to a finite one exactly below the halfway point between the
greatest finite value and the next on the scale.

## Main definitions

* `Binary64.magnitudeValue`: the value of a magnitude.
* `Binary64.RoundsTo`: a rational number rounds to a magnitude.
-/
namespace Munch.Binary64

/-! ## The scale -/

theorem units_eq (m : Nat) : units m =
    if m / 2 ^ 52 = 0 then m % 2 ^ 52 else (2 ^ 52 + m % 2 ^ 52) * 2 ^ (m / 2 ^ 52 - 1) := rfl

/-- A step of the scale is as long as the exponent says. -/
theorem units_succ (m : Nat) : units (m + 1) = units m + 2 ^ (m / 2 ^ 52 - 1) := by
  by_cases hcarry : m % 2 ^ 52 + 1 < 2 ^ 52
  · -- The exponent stays, the fraction grows by one.
    have hdiv : (m + 1) / 2 ^ 52 = m / 2 ^ 52 := by omega
    have hmod : (m + 1) % 2 ^ 52 = m % 2 ^ 52 + 1 := by omega
    simp only [units_eq, hdiv, hmod]
    split
    · rename_i h0
      rw [h0, Nat.zero_sub, Nat.pow_zero]
    · rw [← Nat.add_assoc, Nat.add_mul _ 1, Nat.one_mul]
  · -- The fraction starts again at the next exponent.
    have hdiv : (m + 1) / 2 ^ 52 = m / 2 ^ 52 + 1 := by omega
    have hmod : (m + 1) % 2 ^ 52 = 0 := by omega
    have hfraction : m % 2 ^ 52 = 2 ^ 52 - 1 := by omega
    simp only [units_eq, hdiv, hmod, hfraction, if_neg (Nat.succ_ne_zero _), Nat.add_sub_cancel]
    split
    · rename_i h0
      rw [h0, Nat.pow_zero]
      decide
    · rename_i h0
      obtain ⟨e, he⟩ := Nat.exists_eq_succ_of_ne_zero h0
      rw [he, Nat.succ_eq_add_one, Nat.add_sub_cancel, Nat.pow_succ]
      omega

theorem units_lt_units_succ (m : Nat) : units m < units (m + 1) := by
  rw [units_succ]
  exact Nat.lt_add_of_pos_right (Nat.two_pow_pos _)

theorem units_strictMono : StrictMono units := strictMono_nat_of_lt_succ units_lt_units_succ

theorem units_lt (m : Nat) : units m < 2 ^ 53 * 2 ^ (m / 2 ^ 52 - 1) := by
  have hmod := Nat.mod_lt m (Nat.two_pow_pos 52)
  have hpos := Nat.two_pow_pos (m / 2 ^ 52 - 1)
  rw [units_eq]
  split
  · exact (hmod.trans (by decide)).trans_le (Nat.le_mul_of_pos_right _ hpos)
  · exact Nat.mul_lt_mul_of_pos_right (by omega) hpos

/-- The neighbours of a magnitude are farther from each other than two steps of its seventeenth
digit are long. -/
theorem two_mul_units_lt {m : Nat} (hm : m ≠ 0) :
    2 * units m + 10 ^ 16 * units (m - 1) < 10 ^ 16 * units (m + 1) := by
  obtain ⟨k, rfl⟩ := Nat.exists_eq_succ_of_ne_zero hm
  have hself := units_succ k
  have hsucc := units_succ (k + 1)
  have hlt := units_lt (k + 1)
  have hle := (units_lt_units_succ k).le
  have hpos := Nat.two_pow_pos ((k + 1) / 2 ^ 52 - 1)
  rw [Nat.succ_eq_add_one, Nat.add_sub_cancel]
  by_cases hcarry : (k + 1) % 2 ^ 52 = 0
  · -- At a power of two the step below is half as long, but the magnitude is the least of its steps.
    have hunits : units (k + 1) = 2 ^ 52 * 2 ^ ((k + 1) / 2 ^ 52 - 1) := by
      rw [units_eq, hcarry, if_neg (by omega), Nat.add_zero]
    generalize 2 ^ ((k + 1) / 2 ^ 52 - 1) = step at *
    omega
  · have hdiv : k / 2 ^ 52 = (k + 1) / 2 ^ 52 := by omega
    rw [hdiv] at hself
    generalize 2 ^ ((k + 1) / 2 ^ 52 - 1) = step at *
    omega

theorem unitsPerOne_pos : 0 < unitsPerOne := by decide +kernel

/-- The value of a magnitude. -/
def magnitudeValue (m : Nat) : ℚ := units m / unitsPerOne

theorem unitsPerOne_cast_pos : (0 : ℚ) < unitsPerOne := Nat.cast_pos.2 unitsPerOne_pos

theorem magnitudeValue_strictMono : StrictMono magnitudeValue := fun _ _ h =>
  div_lt_div_of_pos_right (Nat.cast_lt.2 (units_strictMono h)) unitsPerOne_cast_pos

theorem magnitudeValue_zero : magnitudeValue 0 = 0 := by
  have hunits : units 0 = 0 := by decide
  rw [magnitudeValue, hunits, Nat.cast_zero, zero_div]

theorem magnitudeValue_nonneg (m : Nat) : 0 ≤ magnitudeValue m :=
  div_nonneg (Nat.cast_nonneg _) (Nat.cast_nonneg _)

/-! ## Numbers and their magnitudes -/

section Magnitude

variable {m : Nat}

theorem bits_ofMagnitude (hm : m < infinity) : (ofMagnitude m).bits.toNat = m := by
  have hlt : m < 2 ^ 64 := hm.trans (by decide)
  rw [ofMagnitude, Nat.toUInt64, UInt64.toNat_ofNat']
  exact Nat.mod_eq_of_lt hlt

theorem magnitude_ofMagnitude (hm : m < infinity) : (ofMagnitude m).magnitude = m := by
  have hlt : m < 2 ^ 63 := hm.trans (by decide)
  rw [magnitude, bits_ofMagnitude hm]
  exact Nat.mod_eq_of_lt hlt

theorem isFinite_ofMagnitude (hm : m < infinity) : (ofMagnitude m).isFinite = true := by
  rw [isFinite, magnitude_ofMagnitude hm]
  exact decide_eq_true hm

theorem isNegative_ofMagnitude (hm : m < infinity) : (ofMagnitude m).isNegative = false := by
  have hlt : m < 2 ^ 63 := hm.trans (by decide)
  rw [isNegative, bits_ofMagnitude hm]
  exact decide_eq_false (Nat.not_le.2 hlt)

/-- A number without sign is its magnitude. -/
theorem ofMagnitude_magnitude {d : Binary64} (h : d.isNegative = false) :
    ofMagnitude d.magnitude = d := by
  have hlt : d.bits.toNat < Nat.pow 2 63 := Nat.not_le.1 (of_decide_eq_false h)
  rw [magnitude, Nat.mod_eq_of_lt hlt, ofMagnitude, Nat.toUInt64, UInt64.ofNat_toNat]

end Magnitude

/-! ## Rounding -/

/-- The value is no farther from the magnitude than halfway to either neighbour, and halfway only
if the magnitude is even. -/
def RoundsTo (v : ℚ) (m : Nat) : Prop :=
  let low : ℚ := units (m - 1) + units m
  let high : ℚ := units m + units (m + 1)
  let twice : ℚ := 2 * (v * unitsPerOne)
  if m % 2 = 0 then low ≤ twice ∧ twice ≤ high else low < twice ∧ twice < high

variable {a b v v' : ℚ} {m m' : Nat}

theorem roundsTo_iff : RoundsTo v m ↔
    if m % 2 = 0 then magnitudeValue (m - 1) + magnitudeValue m ≤ 2 * v ∧
      2 * v ≤ magnitudeValue m + magnitudeValue (m + 1)
    else magnitudeValue (m - 1) + magnitudeValue m < 2 * v ∧
      2 * v < magnitudeValue m + magnitudeValue (m + 1) := by
  have hpos := unitsPerOne_cast_pos
  simp only [RoundsTo, magnitudeValue, ← add_div, div_le_iff₀ hpos, le_div_iff₀ hpos,
    div_lt_iff₀ hpos, lt_div_iff₀ hpos, mul_assoc]

/-- The least value that rounds to a magnitude, and the greatest. -/
theorem RoundsTo.value_bounds (h : RoundsTo v m) :
    magnitudeValue (m - 1) + magnitudeValue m ≤ 2 * v ∧
      2 * v ≤ magnitudeValue m + magnitudeValue (m + 1) := by
  rw [roundsTo_iff] at h
  split at h
  · exact h
  · exact ⟨h.1.le, h.2.le⟩

theorem RoundsTo.value_bounds_of_odd (h : RoundsTo v m) (hm : m % 2 ≠ 0) :
    magnitudeValue (m - 1) + magnitudeValue m < 2 * v ∧
      2 * v < magnitudeValue m + magnitudeValue (m + 1) := by
  rwa [roundsTo_iff, if_neg hm] at h

/-- A greater value does not round to a smaller magnitude. -/
theorem RoundsTo.le_of_le (h : RoundsTo v m) (h' : RoundsTo v' m') (hv : v ≤ v') : m ≤ m' := by
  by_contra hlt
  have hself := magnitudeValue_strictMono.monotone (show m' ≤ m - 1 by omega)
  have hsucc := magnitudeValue_strictMono.monotone (show m' + 1 ≤ m by omega)
  obtain ⟨hlow, -⟩ := h.value_bounds
  obtain ⟨-, hhigh⟩ := h'.value_bounds
  -- Both values are the halfway point between two neighbours, of which one is odd.
  by_cases hparity : m % 2 = 0
  · have hodd : m' % 2 ≠ 0 := by
      intro heven
      have hgap := magnitudeValue_strictMono (show m' < m - 1 by omega)
      linarith
    have hstrict := (h'.value_bounds_of_odd hodd).2
    linarith
  · have hstrict := (h.value_bounds_of_odd hparity).1
    linarith

theorem RoundsTo.unique (h : RoundsTo v m) (h' : RoundsTo v m') : m = m' :=
  le_antisymm (h.le_of_le h' le_rfl) (h'.le_of_le h le_rfl)

theorem RoundsTo.between (ha : RoundsTo a m) (hb : RoundsTo b m) (hav : a ≤ v) (hvb : v ≤ b) :
    RoundsTo v m := by
  rw [roundsTo_iff] at *
  split at ha
  · rename_i heven
    rw [if_pos heven] at hb ⊢
    exact ⟨by linarith, by linarith⟩
  · rename_i hodd
    rw [if_neg hodd] at hb ⊢
    exact ⟨by linarith, by linarith⟩

theorem roundsTo_magnitudeValue (hm : m ≠ 0) : RoundsTo (magnitudeValue m) m := by
  have hpred := magnitudeValue_strictMono (Nat.sub_one_lt hm)
  have hsucc := magnitudeValue_strictMono (Nat.lt_succ_self m)
  rw [roundsTo_iff]
  split
  · exact ⟨by linarith, by linarith⟩
  · exact ⟨by linarith, by linarith⟩

/-- Of two values around a magnitude that are closer to each other than the halfway points are, one
rounds to it. -/
theorem roundsTo_or_of_close (hm : m ≠ 0) (hav : a ≤ magnitudeValue m)
    (hvb : magnitudeValue m ≤ b)
    (hclose : 2 * (b - a) < magnitudeValue (m + 1) - magnitudeValue (m - 1)) :
    RoundsTo a m ∨ RoundsTo b m := by
  have hpred := magnitudeValue_strictMono (Nat.sub_one_lt hm)
  have hsucc := magnitudeValue_strictMono (Nat.lt_succ_self m)
  by_cases hlow : magnitudeValue (m - 1) + magnitudeValue m < 2 * a
  · refine Or.inl ?_
    rw [roundsTo_iff]
    split
    · exact ⟨by linarith, by linarith⟩
    · exact ⟨by linarith, by linarith⟩
  · refine Or.inr ?_
    rw [roundsTo_iff]
    split
    · exact ⟨by linarith, by linarith⟩
    · exact ⟨by linarith, by linarith⟩

theorem roundsTo_zero_iff : RoundsTo v 0 ↔ 0 ≤ v ∧ 2 * (v * unitsPerOne) ≤ 1 := by
  have hunits : units (0 + 1) = 1 := by decide
  have hone : magnitudeValue (0 + 1) = 1 / unitsPerOne := by
    rw [magnitudeValue, hunits, Nat.cast_one]
  rw [roundsTo_iff, if_pos rfl, hone, magnitudeValue_zero, zero_add, zero_add,
    le_div_iff₀ unitsPerOne_cast_pos, mul_assoc]
  exact and_congr_left' (by constructor <;> intro h <;> linarith)

theorem roundsTo_zero : RoundsTo 0 0 := by
  rw [roundsTo_zero_iff, zero_mul, mul_zero]
  exact ⟨le_rfl, zero_le_one⟩

/-! ## Overflow -/

/-- Halfway between the greatest finite value and the next on the scale. -/
theorem magnitudeValue_infinity :
    magnitudeValue (infinity - 1) + magnitudeValue infinity = 2 * (2 ^ 1024 - 2 ^ 970) := by
  have hunits : units (infinity - 1) + units infinity + 2 * 2 ^ 970 * unitsPerOne =
      2 * 2 ^ 1024 * unitsPerOne := by decide +kernel
  have hcast := congrArg (Nat.cast : Nat → ℚ) hunits
  simp only [Nat.cast_add, Nat.cast_mul, Nat.cast_pow, Nat.cast_ofNat] at hcast
  rw [magnitudeValue, magnitudeValue, ← add_div, div_eq_iff unitsPerOne_cast_pos.ne']
  generalize (2 : ℚ) ^ 970 = small at hcast ⊢
  generalize (2 : ℚ) ^ 1024 = great at hcast ⊢
  linarith

/-- A value rounds to a finite magnitude exactly if it is below the halfway point to infinity. -/
theorem RoundsTo.lt_infinity_iff (h : RoundsTo v m) : m < infinity ↔ v < 2 ^ 1024 - 2 ^ 970 := by
  have hinfinity := magnitudeValue_infinity
  generalize (2 : ℚ) ^ 1024 - 2 ^ 970 = limit at hinfinity ⊢
  have hpos : 0 < infinity := by decide
  constructor
  · intro hm
    have hself := magnitudeValue_strictMono.monotone (show m ≤ infinity - 1 by omega)
    have hsucc := magnitudeValue_strictMono.monotone (show m + 1 ≤ infinity by omega)
    by_cases heq : m = infinity - 1
    · -- The greatest finite magnitude is odd.
      have hodd : m % 2 ≠ 0 := by rw [heq]; decide
      have hhigh := (h.value_bounds_of_odd hodd).2
      linarith
    · have hlt := magnitudeValue_strictMono (show m < infinity - 1 by omega)
      have hhigh := h.value_bounds.2
      linarith
  · intro hv
    by_contra hm
    have hself := magnitudeValue_strictMono.monotone (show infinity ≤ m by omega)
    have hpred := magnitudeValue_strictMono.monotone (show infinity - 1 ≤ m - 1 by omega)
    have hlow := h.value_bounds.1
    linarith

end Munch.Binary64
