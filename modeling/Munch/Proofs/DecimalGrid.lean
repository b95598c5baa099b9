import Munch.Binary64.Shortest
import Munch.Proofs.LimbDecimal
import Munch.Proofs.Nearest
import Munch.Proofs.RoundingSearch

/-!
# Decimals on a grid

The decimals of one exponent form a grid. A decimal of `n` digits next to a value lies on the grid of
`n` digits around it, or so far below the value that a point of the grid is nearer. So nothing of `n`
digits lies between the value's two neighbours on this grid. Of these the one is chosen that rounds
to the magnitude, and the nearer one if both do.

## Main definitions

* `Decimal.value`: the value of a decimal.
* `Binary64.gridFloor`: the neighbour below a magnitude.
-/
namespace Munch

/-! ## Decimals -/

/-- The value of a decimal. -/
def Decimal.value (x : Decimal) : ℚ := Binary64.decimalValue x.digits x.exponent

theorem Decimal.value_strip (x : Decimal) : x.strip.value = x.value := by
  fun_induction Decimal.strip x with
  | case1 x h ih =>
    have hdigits : x.digits / 10 * 10 ^ 1 = x.digits := by omega
    have hadd := Binary64.decimalValue_add (x.digits / 10) 1 x.exponent
    rw [hdigits] at hadd
    exact ih.trans hadd
  | case2 x h => rfl

theorem Decimal.digits_lt (x : Decimal) : x.digits < 10 ^ (Bytes.decimal x.digits).length := by
  have hlt := Bytes.ofDecimal_lt (Bytes.isDigits_decimal x.digits)
  rwa [Bytes.ofDecimal_decimal] at hlt

theorem Decimal.digits_strip_le (x : Decimal) : x.strip.digits ≤ x.digits := by
  fun_induction Decimal.strip x with
  | case1 x h ih => exact ih.trans (Nat.div_le_self _ _)
  | case2 x h => exact le_rfl

/-- Ten to the power of `n` loses its zeros, so what is stripped has no more than `n` digits. -/
theorem Decimal.digits_strip_lt {x : Decimal} {n : Nat} (hn : 0 < n) (hx : x.digits ≤ 10 ^ n) :
    x.strip.digits < 10 ^ n := by
  rcases hx.lt_or_eq with hlt | heq
  · exact x.digits_strip_le.trans_lt hlt
  · obtain ⟨k, rfl⟩ := Nat.exists_eq_succ_of_ne_zero hn.ne'
    have hpos : 0 < 10 ^ k := Nat.pow_pos (by decide)
    rw [Nat.succ_eq_add_one, Nat.pow_succ] at heq ⊢
    rw [Decimal.strip, if_pos (by omega)]
    have hle := Decimal.digits_strip_le ⟨x.digits / 10, x.exponent + 1⟩
    simp only at hle
    omega

namespace Binary64

/-! ## Grids -/

section Grid

variable {c n : Nat} {e : Int} {v : ℚ}

/-- Between the neighbours of a value on a grid lies no decimal of `n` digits, if the value has `n`
whole digits on the grid or more. -/
theorem value_le_or_le {y : Decimal} (hn : 0 < n) (hy : y.digits < 10 ^ n)
    (hfirst : decimalValue (10 ^ (n - 1)) e ≤ v) (hceil : v < decimalValue (c + 1) e) :
    y.value ≤ decimalValue c e ∨ decimalValue (c + 1) e ≤ y.value := by
  rcases le_or_gt e y.exponent with hge | hlt
  · obtain ⟨k, hk⟩ := Int.le.dest hge
    rw [Decimal.value, ← hk, decimalValue_add, decimalValue_le_iff, decimalValue_le_iff]
    omega
  · -- The decimal is finer than the grid and so below the first point of `n` digits.
    have hgrid : decimalValue (10 ^ (n - 1)) e ≤ decimalValue c e := by
      have hlt := hfirst.trans_lt hceil
      rw [← not_le, decimalValue_le_iff] at hlt
      rw [decimalValue_le_iff]
      omega
    obtain ⟨k, hk⟩ := Int.le.dest (Int.add_one_le_iff.2 hlt)
    have hvalue : y.value ≤ decimalValue (10 ^ (n - 1)) e := by
      have hshift : decimalValue (10 ^ (n - 1)) e =
          decimalValue (10 ^ (n - 1) * 10 ^ (k + 1)) y.exponent := by
        rw [← decimalValue_add, ← hk]
        congr 1
        push_cast
        ring
      have hpow : 10 ^ n ≤ 10 ^ (n - 1) * 10 ^ (k + 1) := by
        rw [← Nat.pow_add]
        exact Nat.pow_le_pow_right (by decide) (by omega)
      rw [hshift, Decimal.value, decimalValue_le_iff]
      exact hy.le.trans hpow
    exact Or.inl (hvalue.trans hgrid)

end Grid

/-! ## Steps -/

theorem stepsPerOne_pos : 0 < stepsPerOne := by decide +kernel

theorem readsBack_iff {m x : Nat} : readsBack m x = true ↔ RoundsTo (x / stepsPerOne) m := by
  rw [roundsTo_div_iff stepsPerOne_pos, readsBack]
  split <;> simp

/-- A number of steps as a decimal. -/
theorem decimalValue_steps (c k : Nat) :
    decimalValue c (k - 340) = ((c * 10 ^ k : Nat) : ℚ) / stepsPerOne := by
  have hsteps : (10 : ℚ) ^ ((340 : Nat) : Int) = stepsPerOne := by
    unfold stepsPerOne
    generalize 340 = n
    rw [Nat.pow_eq, Nat.cast_pow, Nat.cast_ofNat, zpow_natCast]
  have hpow : (10 : ℚ) ^ ((k : Int) - 340) = 10 ^ k / stepsPerOne := by
    rw [zpow_sub₀ (by norm_num), zpow_natCast, ← hsteps, Nat.cast_ofNat]
  rw [decimalValue, hpow, Nat.cast_mul, Nat.cast_pow, Nat.cast_ofNat, mul_div_assoc]

/-! ## Neighbours of a magnitude -/

section Neighbours

variable {m n k a c : Nat}

/-- The number of the last point of a grid that is not above the magnitude. -/
def gridFloor (m width : Nat) : Nat := units m * stepsPerOne / (width * unitsPerOne)

theorem decimalValue_le_magnitudeValue_iff : decimalValue c (k - 340) ≤ magnitudeValue m ↔
    c * 10 ^ k ≤ units m * stepsPerOne / unitsPerOne := by
  rw [decimalValue_steps, magnitudeValue,
    div_le_div_iff₀ (Nat.cast_pos.2 stepsPerOne_pos) unitsPerOne_cast_pos,
    Nat.le_div_iff_mul_le unitsPerOne_pos]
  norm_cast

theorem decimalValue_gridFloor_le (m k : Nat) :
    decimalValue (gridFloor m (10 ^ k)) (k - 340) ≤ magnitudeValue m := by
  rw [decimalValue_le_magnitudeValue_iff, gridFloor, Nat.mul_comm (10 ^ k), ← Nat.div_div_eq_div_mul]
  exact Nat.div_mul_le_self _ _

theorem lt_decimalValue_gridFloor_succ (m k : Nat) :
    magnitudeValue m < decimalValue (gridFloor m (10 ^ k) + 1) (k - 340) := by
  rw [← not_le, decimalValue_le_magnitudeValue_iff, gridFloor, Nat.mul_comm (10 ^ k),
    ← Nat.div_div_eq_div_mul, Nat.not_le, Nat.mul_comm (_ + 1)]
  exact Nat.lt_mul_div_succ _ (Nat.pow_pos (Nat.succ_pos 9))

/-- Twice a fraction against the sum of two others, in whole numbers. -/
theorem two_mul_div_spec {steps one : Nat} (hsteps : 0 < steps) (hone : 0 < one) (u x y : Nat) :
    (2 * (u / one : ℚ) ≤ x / steps + y / steps ↔ 2 * (u * steps) ≤ (x + y) * one) ∧
      (x / steps + y / steps ≤ 2 * (u / one : ℚ) ↔ (x + y) * one ≤ 2 * (u * steps)) := by
  have hsteps : (0 : ℚ) < steps := Nat.cast_pos.2 hsteps
  have hone : (0 : ℚ) < one := Nat.cast_pos.2 hone
  rw [← add_div, ← mul_div_assoc, div_le_div_iff₀ hone hsteps, div_le_div_iff₀ hsteps hone,
    ← Nat.mul_assoc]
  norm_cast

/-- The halfway point between two neighbours on the grid, in whole numbers. -/
theorem halfway_spec (m c k : Nat) :
    (2 * magnitudeValue m ≤ decimalValue c (k - 340) + decimalValue (c + 1) (k - 340) ↔
      2 * (units m * stepsPerOne) ≤ (2 * c + 1) * (10 ^ k * unitsPerOne)) ∧
    (decimalValue c (k - 340) + decimalValue (c + 1) (k - 340) ≤ 2 * magnitudeValue m ↔
      (2 * c + 1) * (10 ^ k * unitsPerOne) ≤ 2 * (units m * stepsPerOne)) := by
  have hsum : (2 * c + 1) * (10 ^ k * unitsPerOne) =
      (c * 10 ^ k + (c + 1) * 10 ^ k) * unitsPerOne := by ring
  rw [decimalValue_steps, decimalValue_steps, magnitudeValue, hsum]
  exact two_mul_div_spec stepsPerOne_pos unitsPerOne_pos _ _ _

/-- The neighbour that is chosen reads back, and the other one is not nearer unless it does not read
back. -/
theorem neighbour?_cases (m width : Nat) :
    let c := gridFloor m width
    let low := readsBack m (c * width)
    let high := readsBack m ((c + 1) * width)
    let twice := 2 * (units m * stepsPerOne)
    let middle := (2 * c + 1) * (width * unitsPerOne)
    neighbour? m width = none ∧ low = false ∧ high = false ∨
      neighbour? m width = some c ∧ low = true ∧ (high = true → twice ≤ middle) ∨
      neighbour? m width = some (c + 1) ∧ high = true ∧ (low = true → middle ≤ twice) := by
  -- The definition is opened as a function: applied, it would be evaluated.
  obtain ⟨f, hf⟩ : ∃ f, f = neighbour? := ⟨_, rfl⟩
  rw [← hf]
  delta neighbour? at hf
  rw [hf]
  dsimp only
  rw [← gridFloor]
  generalize gridFloor m width = c
  generalize 2 * (units m * stepsPerOne) = twice
  generalize (2 * c + 1) * (width * unitsPerOne) = middle
  cases readsBack m (c * width) <;> cases readsBack m ((c + 1) * width)
  · simp
  · simp
  · simp
  · cases horder : compare twice middle with
    | lt => simp [(Nat.compare_eq_lt.1 horder).le]
    | gt => simp [(Nat.compare_eq_gt.1 horder).le]
    | eq =>
      rw [Nat.compare_eq_eq.1 horder]
      by_cases hc : c % 2 = 0 <;> simp [hc]

/-- The neighbour that is chosen rounds to the magnitude, and no decimal that does is nearer, unless
it lies between the two. -/
theorem neighbour?_spec (h : neighbour? m (10 ^ k) = some a) :
    (a = gridFloor m (10 ^ k) ∨ a = gridFloor m (10 ^ k) + 1) ∧
      RoundsTo (decimalValue a (k - 340)) m ∧
        ∀ b, b = gridFloor m (10 ^ k) ∨ b = gridFloor m (10 ^ k) + 1 →
          RoundsTo (decimalValue b (k - 340)) m →
            |magnitudeValue m - decimalValue a (k - 340)| ≤
              |magnitudeValue m - decimalValue b (k - 340)| := by
  have hcases := neighbour?_cases m (10 ^ k)
  have hstep := (decimalValue_gridFloor_le m k).trans_lt (lt_decimalValue_gridFloor_succ m k)
  simp only [readsBack_iff, ← decimalValue_steps, ← halfway_spec, ← abs_sub_le_iff_of_lt hstep,
    ← abs_sub_le_iff_of_gt hstep, h] at hcases
  generalize gridFloor m (10 ^ k) = c at hcases ⊢
  rcases hcases with ⟨hnone, -⟩ | ⟨hsome, hreads, hnearer⟩ | ⟨hsome, hreads, hnearer⟩
  · cases hnone
  · obtain rfl := Option.some.inj hsome
    refine ⟨Or.inl rfl, hreads, ?_⟩
    rintro b (rfl | rfl) hb
    · exact le_rfl
    · exact hnearer hb
  · obtain rfl := Option.some.inj hsome
    refine ⟨Or.inr rfl, hreads, ?_⟩
    rintro b (rfl | rfl) hb
    · exact hnearer hb
    · exact le_rfl

/-- If one of the neighbours rounds to the magnitude, one is found. -/
theorem exists_neighbour? (h : RoundsTo (decimalValue (gridFloor m (10 ^ k)) (k - 340)) m ∨
    RoundsTo (decimalValue (gridFloor m (10 ^ k) + 1) (k - 340)) m) :
    ∃ a, neighbour? m (10 ^ k) = some a := by
  rw [decimalValue_steps, decimalValue_steps, ← readsBack_iff, ← readsBack_iff] at h
  rcases neighbour?_cases m (10 ^ k) with ⟨-, hlow, hhigh⟩ | ⟨hsome, -⟩ | ⟨hsome, -⟩
  · simp [hlow, hhigh] at h
  · exact ⟨_, hsome⟩
  · exact ⟨_, hsome⟩

end Neighbours

end Binary64
end Munch
