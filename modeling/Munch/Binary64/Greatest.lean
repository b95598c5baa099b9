/-!
# The greatest number that fits

A test that holds up to some number and fails beyond it is searched one bit at a time from
the top. `Binary64.greatest_fits` and `Binary64.not_greatest_succ_fits` say that the search
ends at the last number that fits.
-/
namespace Munch.Binary64

/-- Sets the bits of weights 2ᵏ⁻¹, …, 1 above `m`, each as long as `fits` still holds. -/
def greatest (fits : Nat → Bool) : Nat → Nat → Nat
  | 0, m => m
  | k + 1, m => greatest fits k (if fits (m + Nat.pow 2 k) then m + Nat.pow 2 k else m)

/-- The number found fits, if the one that the search starts from does. -/
theorem greatest_fits {fits : Nat → Bool} (k : Nat) {m : Nat} (hm : fits m = true) :
    fits (greatest fits k m) = true := by
  induction k generalizing m with
  | zero => exact hm
  | succ k ih => unfold greatest; split <;> exact ih (by assumption)

/-- What fits, with all before it, and lies in the range of the search is not above the number
found. -/
theorem le_greatest {fits : Nat → Bool} {j : Nat} (hfits : ∀ i ≤ j, fits i = true) (k : Nat)
    {m : Nat} (hj : j < m + Nat.pow 2 k) : j ≤ greatest fits k m := by
  induction k generalizing m with
  | zero => exact Nat.le_of_lt_succ hj
  | succ k ih =>
    unfold greatest
    split
    · exact ih (by rw [Nat.add_assoc, ← Nat.mul_two]; exact hj)
    · rename_i hnot
      exact ih (Nat.lt_of_not_le fun hle => hnot (hfits _ hle))

/-- The successor of the number found does not fit, if the end of the range does not. -/
theorem not_greatest_succ_fits {fits : Nat → Bool} (k : Nat) {m : Nat}
    (hend : fits (m + Nat.pow 2 k) = false) : fits (greatest fits k m + 1) = false := by
  induction k generalizing m with
  | zero => simpa [greatest] using hend
  | succ k ih =>
    unfold greatest
    split
    · exact ih (by rw [Nat.add_assoc, ← Nat.mul_two]; exact hend)
    · exact ih (Bool.eq_false_iff.2 ‹_›)

end Munch.Binary64
