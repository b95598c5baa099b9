import Munch.Proofs.Rounding

/-!
# The search for the nearest magnitude

The search by comparing whole numbers finds the magnitude to which a fraction rounds. So a decimal
numeral is read as the number to which its value rounds, and it is out of range exactly if that is
infinity.

## Main definitions

* `Binary64.decimalValue`: the value of digits and a power of ten.
-/
namespace Munch.Binary64

variable {num den m : Nat}

/-! ## The floor -/

/-- Rounding a fraction compares whole numbers. -/
theorem roundsTo_div_iff (hden : 0 < den) :
    RoundsTo (num / den) m ↔
      if m % 2 = 0 then (units (m - 1) + units m) * den ≤ 2 * (num * unitsPerOne) ∧
        2 * (num * unitsPerOne) ≤ (units m + units (m + 1)) * den
      else (units (m - 1) + units m) * den < 2 * (num * unitsPerOne) ∧
        2 * (num * unitsPerOne) < (units m + units (m + 1)) * den := by
  have hpos : (0 : ℚ) < den := Nat.cast_pos.2 hden
  have htwice : (2 * (num / den * unitsPerOne) : ℚ) = 2 * (num * unitsPerOne) / den := by ring
  simp only [RoundsTo, htwice, le_div_iff₀ hpos, div_le_iff₀ hpos, lt_div_iff₀ hpos,
    div_lt_iff₀ hpos]
  norm_cast

/-- The greatest magnitude whose value does not exceed the fraction. -/
theorem floorMagnitude_spec (h : num * unitsPerOne < units (2 ^ 63) * den) :
    units (floorMagnitude num den) * den ≤ num * unitsPerOne ∧
      num * unitsPerOne < units (floorMagnitude num den + 1) * den := by
  let fits : Nat → Bool := fun m => decide (units m * den ≤ num * unitsPerOne)
  have hfirst : fits 0 = true := by simp [fits, units]
  have hend : fits (0 + 2 ^ 63) = false := by
    rw [Nat.zero_add]
    exact decide_eq_false (Nat.not_le.2 h)
  constructor
  · exact of_decide_eq_true (greatest_fits 63 hfirst)
  · exact Nat.not_le.1 (of_decide_eq_false (not_greatest_succ_fits 63 hend))

/-- No magnitude in the range of the search whose value is at most the fraction is above its floor. -/
theorem le_floorMagnitude (h : units m * den ≤ num * unitsPerOne) (hm : m < 2 ^ 63) :
    m ≤ floorMagnitude num den := by
  refine le_greatest (fun i hi => decide_eq_true ?_) 63 (by omega)
  exact (Nat.mul_le_mul_right den (units_strictMono.monotone hi)).trans h

/-! ## The nearest magnitude -/

/-- The definition as an equation of functions: an equation of numbers would be checked by
evaluating the search. -/
theorem nearestMagnitude_eq_fun : nearestMagnitude = fun num den =>
    let m := floorMagnitude num den
    match compare (2 * (num * unitsPerOne)) ((units m + units (m + 1)) * den) with
    | .lt => m
    | .gt => m + 1
    | .eq => if m % 2 = 0 then m else m + 1 := by
  delta nearestMagnitude
  rfl

/-- The floor is chosen below the halfway point to its successor, and there if it is even. -/
theorem nearestMagnitude_cases (num den : Nat) :
    let f := floorMagnitude num den
    let twice := 2 * (num * unitsPerOne)
    let middle := (units f + units (f + 1)) * den
    nearestMagnitude num den = f ∧ (twice < middle ∨ twice = middle ∧ f % 2 = 0) ∨
      nearestMagnitude num den = f + 1 ∧ (middle < twice ∨ twice = middle ∧ f % 2 ≠ 0) := by
  rw [nearestMagnitude_eq_fun]
  dsimp only
  generalize floorMagnitude num den = f
  generalize num * unitsPerOne = n
  split
  · exact Or.inl ⟨rfl, Or.inl (Nat.compare_eq_lt.1 ‹_›)⟩
  · exact Or.inr ⟨rfl, Or.inl (Nat.compare_eq_gt.1 ‹_›)⟩
  · have heq := Nat.compare_eq_eq.1 ‹_›
    split
    · exact Or.inl ⟨rfl, Or.inr ⟨heq, ‹_›⟩⟩
    · exact Or.inr ⟨rfl, Or.inr ⟨heq, ‹_›⟩⟩

theorem floorMagnitude_le_nearestMagnitude (num den : Nat) :
    floorMagnitude num den ≤ nearestMagnitude num den := by
  rcases nearestMagnitude_cases num den with ⟨hm, -⟩ | ⟨hm, -⟩
  · exact hm.ge
  · exact hm ▸ Nat.le_succ _

/-- In the range of the search every fraction rounds to what is found. -/
theorem roundsTo_nearestMagnitude (hden : 0 < den) (h : num * unitsPerOne < units (2 ^ 63) * den) :
    RoundsTo (num / den) (nearestMagnitude num den) := by
  have hcases := nearestMagnitude_cases num den
  have hspec := floorMagnitude_spec h
  rw [roundsTo_div_iff hden]
  generalize nearestMagnitude num den = m at hcases ⊢
  generalize floorMagnitude num den = f at hcases hspec
  generalize num * unitsPerOne = n at hcases hspec ⊢
  obtain ⟨hfloor, hceil⟩ := hspec
  simp only [Nat.add_mul] at hcases ⊢
  rcases hcases with ⟨rfl, htwice⟩ | ⟨rfl, htwice⟩
  · have hpred : units (m - 1) * den ≤ units m * den :=
      Nat.mul_le_mul_right den (units_strictMono.monotone (Nat.sub_le m 1))
    split
    · omega
    · have hlt : units (m - 1) * den < units m * den :=
        Nat.mul_lt_mul_of_pos_right (units_strictMono (by omega)) hden
      omega
  · have hsucc : units (f + 1) * den < units (f + 1 + 1) * den :=
      Nat.mul_lt_mul_of_pos_right (units_lt_units_succ _) hden
    rw [Nat.add_sub_cancel]
    split <;> omega

/-- What is found is finite and the fraction rounds to it, or the fraction is beyond all finite
values. -/
theorem nearestMagnitude_spec (num : Nat) (hden : 0 < den) :
    nearestMagnitude num den < infinity ∧ RoundsTo (num / den) (nearestMagnitude num den) ∨
      infinity ≤ nearestMagnitude num den ∧ (2 ^ 1024 - 2 ^ 970 : ℚ) ≤ num / den := by
  by_cases hrange : num * unitsPerOne < units (2 ^ 63) * den
  · have hrounds := roundsTo_nearestMagnitude hden hrange
    by_cases hfinite : nearestMagnitude num den < infinity
    · exact Or.inl ⟨hfinite, hrounds⟩
    · exact Or.inr ⟨Nat.not_lt.1 hfinite, not_lt.1 (mt hrounds.lt_infinity_iff.2 hfinite)⟩
  · have hend : infinity < 2 ^ 63 := by decide
    have hunits : units infinity * den ≤ num * unitsPerOne :=
      (Nat.mul_le_mul_right den (units_strictMono hend).le).trans (Nat.not_lt.1 hrange)
    have hfloor := le_floorMagnitude hunits hend
    have hvalue : magnitudeValue infinity ≤ (num / den : ℚ) := by
      rw [magnitudeValue, div_le_div_iff₀ unitsPerOne_cast_pos (Nat.cast_pos.2 hden)]
      exact_mod_cast hunits
    refine Or.inr ⟨hfloor.trans (floorMagnitude_le_nearestMagnitude num den), ?_⟩
    have hmiddle := magnitudeValue_infinity
    generalize (2 : ℚ) ^ 1024 - 2 ^ 970 = limit at hmiddle ⊢
    have hlast := magnitudeValue_strictMono (show infinity - 1 < infinity by decide)
    linarith

/-! ## Decimal numerals -/

/-- The value of `digits · 10 ^ exponent`. -/
def decimalValue (digits : Nat) (exponent : Int) : ℚ := digits * 10 ^ exponent

/-- Zeros behind the digits are made up for by the exponent. -/
theorem decimalValue_add (digits k : Nat) (e : Int) :
    decimalValue digits (e + k) = decimalValue (digits * 10 ^ k) e := by
  rw [decimalValue, decimalValue, zpow_add₀ (by norm_num), zpow_natCast]
  push_cast
  ring

theorem decimalValue_le_iff {c c' : Nat} {e : Int} :
    decimalValue c e ≤ decimalValue c' e ↔ c ≤ c' := by
  have hpos : (0 : ℚ) < 10 ^ e := by positivity
  rw [decimalValue, decimalValue, mul_le_mul_iff_left₀ hpos, Nat.cast_le]

theorem decimalRatio_spec (digits : Nat) (exponent : Int) :
    0 < (decimalRatio digits exponent).2 ∧
      ((decimalRatio digits exponent).1 / (decimalRatio digits exponent).2 : ℚ) =
        decimalValue digits exponent := by
  cases exponent with
  | ofNat k => simp [decimalRatio, decimalValue]
  | negSucc k => simp [decimalRatio, decimalValue, zpow_negSucc, div_eq_mul_inv]

section Decimal

variable {digits : Nat} {exponent : Int}

theorem decimalValue_nonneg (digits : Nat) (exponent : Int) : 0 ≤ decimalValue digits exponent := by
  unfold decimalValue
  positivity

/-- A value with a large exponent is beyond all finite values. -/
theorem le_decimalValue_of_large (hdigits : digits ≠ 0) (hlarge : 310 < exponent) :
    2 ^ 1024 - 2 ^ 970 ≤ decimalValue digits exponent := by
  have hone : (1 : ℚ) ≤ digits := Nat.one_le_cast.2 (Nat.pos_of_ne_zero hdigits)
  have hpow : (10 : ℚ) ^ (311 : Int) ≤ 10 ^ exponent :=
    zpow_le_zpow_right₀ (by norm_num) (by omega)
  have hnumeric : ((2 ^ 1024 : Nat) : ℚ) ≤ 10 ^ (311 : Int) := by
    exact_mod_cast (by decide +kernel : 2 ^ 1024 ≤ 10 ^ 311)
  have hvalue : (10 : ℚ) ^ exponent ≤ decimalValue digits exponent :=
    le_mul_of_one_le_left (by positivity) hone
  rw [Nat.cast_pow, Nat.cast_ofNat] at hnumeric
  exact (sub_le_self _ (by positivity)).trans (hnumeric.trans (hpow.trans hvalue))

theorem decimalValue_le_of_small (hsmall : exponent + (digits.log2 + 1) < -330) :
    decimalValue digits exponent ≤ 10 ^ (-331 : Int) := by
  have hdigits : (digits : ℚ) ≤ 10 ^ (digits.log2 + 1) := by
    have hlog : digits ≤ 10 ^ (digits.log2 + 1) :=
      Nat.lt_log2_self.le.trans (Nat.pow_le_pow_left (by decide) _)
    exact_mod_cast hlog
  calc
    decimalValue digits exponent ≤ 10 ^ (digits.log2 + 1) * 10 ^ exponent :=
      mul_le_mul_of_nonneg_right hdigits (by positivity)
    _ = 10 ^ (((digits.log2 + 1 : Nat) : Int) + exponent) := by
      rw [zpow_add₀ (by norm_num), zpow_natCast]
    _ ≤ 10 ^ (-331 : Int) := zpow_le_zpow_right₀ (by norm_num) (by omega)

/-- A value with a small exponent for its digits rounds to zero. -/
theorem roundsTo_zero_of_small (hsmall : exponent + (digits.log2 + 1) < -330) :
    RoundsTo (decimalValue digits exponent) 0 := by
  have hnonneg := decimalValue_nonneg digits exponent
  have hvalue := decimalValue_le_of_small hsmall
  have hnumeric : (unitsPerOne : ℚ) * 2 ≤ 10 ^ 331 := by
    exact_mod_cast (by decide +kernel : unitsPerOne * 2 ≤ 10 ^ 331)
  refine roundsTo_zero_iff.2 ⟨hnonneg, ?_⟩
  calc 2 * (decimalValue digits exponent * unitsPerOne)
      = decimalValue digits exponent * (unitsPerOne * 2) := by ring
    _ ≤ 10 ^ (-331 : Int) * 10 ^ 331 := mul_le_mul hvalue hnumeric
      (mul_nonneg unitsPerOne_cast_pos.le zero_le_two) (by positivity)
    _ = 1 := by
      rw [← zpow_natCast, ← zpow_add₀ (by norm_num)]
      norm_num

/-- A numeral is read as the number to which its value rounds, or it is beyond all of them. -/
theorem ofDecimal?_cases (digits : Nat) (exponent : Int) :
    (∃ m < infinity, ofDecimal? digits exponent = some (ofMagnitude m) ∧
      RoundsTo (decimalValue digits exponent) m) ∨
    ofDecimal? digits exponent = none ∧ 2 ^ 1024 - 2 ^ 970 ≤ decimalValue digits exponent := by
  rw [ofDecimal?]
  split
  · rename_i hdigits
    have hvalue : decimalValue digits exponent = 0 := by
      rw [decimalValue, hdigits, Nat.cast_zero, zero_mul]
    exact Or.inl ⟨0, by decide, rfl, hvalue ▸ roundsTo_zero⟩
  split
  · exact Or.inr ⟨rfl, le_decimalValue_of_large ‹_› ‹_›⟩
  split
  · exact Or.inl ⟨0, by decide, rfl, roundsTo_zero_of_small ‹_›⟩
  obtain ⟨hden, hratio⟩ := decimalRatio_spec digits exponent
  have hspec := nearestMagnitude_spec (decimalRatio digits exponent).1 hden
  rw [hratio] at hspec
  dsimp only
  rcases hspec with ⟨hfinite, hrounds⟩ | ⟨hinfinite, hvalue⟩
  · exact Or.inl ⟨_, hfinite, if_pos hfinite, hrounds⟩
  · exact Or.inr ⟨if_neg (Nat.not_lt.2 hinfinite), hvalue⟩

/-- A numeral is read as the number to which its value rounds. -/
theorem ofDecimal?_eq (h : RoundsTo (decimalValue digits exponent) m) (hm : m < infinity) :
    ofDecimal? digits exponent = some (ofMagnitude m) := by
  rcases ofDecimal?_cases digits exponent with ⟨m', -, hread, hrounds⟩ | ⟨-, hvalue⟩
  · rw [hread, h.unique hrounds]
  · exact absurd (h.lt_infinity_iff.1 hm) (not_lt.2 hvalue)

end Decimal

end Munch.Binary64
