import Munch.Binary64.Basic
import Munch.Binary64.Greatest

/-!
# The nearest binary64 number

A non-negative fraction is rounded to the nearest representable value, a tie to the even
magnitude. The search finds the greatest magnitude whose value does not exceed the fraction,
one bit at a time from the top, and the choice is between it and its successor. A decimal
numeral is out of range when it rounds to infinity.
-/
namespace Munch.Binary64

/-- The greatest magnitude whose value is at most `num / den`. -/
def floorMagnitude (num den : Nat) : Nat :=
  greatest (fun m => units m * den ≤ num * unitsPerOne) 63 0

/-- The magnitude nearest to `num / den`. Halfway between two of them the even one is
taken. -/
def nearestMagnitude (num den : Nat) : Nat :=
  let m := floorMagnitude num den
  match compare (2 * (num * unitsPerOne)) ((units m + units (m + 1)) * den) with
  | .lt => m
  | .gt => m + 1
  | .eq => if m % 2 = 0 then m else m + 1

/-- The numerator and denominator of `digits · 10 ^ exponent`. -/
def decimalRatio (digits : Nat) : Int → Nat × Nat
  | .ofNat k => (digits * Nat.pow 10 k, 1)
  | .negSucc k => (digits, Nat.pow 10 (k + 1))

/-- The nearest number to `digits · 10 ^ exponent`, unless that is infinity. Exponents that
decide the answer by themselves are settled first: above 310 any digit overflows, and a
value below 10⁻³³⁰ is nearest to zero. -/
def ofDecimal? (digits : Nat) (exponent : Int) : Option Binary64 :=
  if digits = 0 then some (ofMagnitude 0)
  else if 310 < exponent then none
  else if exponent + (digits.log2 + 1) < -330 then some (ofMagnitude 0)
  else
    let (num, den) := decimalRatio digits exponent
    let m := nearestMagnitude num den
    if m < infinity then some (ofMagnitude m) else none

end Munch.Binary64
