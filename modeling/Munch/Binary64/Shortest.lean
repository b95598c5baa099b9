import Munch.Binary64.Basic
import Munch.Binary64.Greatest

/-!
# The shortest decimal of a binary64 number

The decimal written for a number is the one with the fewest digits among those that read
back as the number, and of those with equally few the one nearest to it. Everything is
measured in steps of 10⁻³⁴⁰, on which every decimal of up to seventeen digits lies: the
decimals of `n` digits around a value form a grid, and only its two neighbours on that grid
can be the answer.
-/
namespace Munch

/-- The number `digits · 10 ^ exponent`. -/
structure Decimal where
  digits : Nat
  exponent : Int
deriving DecidableEq, Repr

/-- Drops the zeros at the end of the digits. -/
def Decimal.strip (x : Decimal) : Decimal :=
  if x.digits ≠ 0 ∧ x.digits % 10 = 0 then strip ⟨x.digits / 10, x.exponent + 1⟩ else x
termination_by x.digits
decreasing_by omega

namespace Binary64

/-- One over the measure of decimals. -/
def stepsPerOne : Nat := Nat.pow 10 340

/-- A decimal of `x` steps rounds to the magnitude `m`: it is no farther than halfway to
either neighbour of `m`, and halfway itself belongs to an even magnitude. -/
def readsBack (m x : Nat) : Bool :=
  let low := (units (m - 1) + units m) * stepsPerOne
  let high := (units m + units (m + 1)) * stepsPerOne
  let twice := 2 * (x * unitsPerOne)
  if m % 2 = 0 then low ≤ twice && twice ≤ high else low < twice && twice < high

/-- Of the neighbours `c` and `c + 1` of the magnitude `m` on the grid of `width` steps,
the one that reads back; of two the nearer, and halfway between them the even one. -/
def neighbour? (m width : Nat) : Option Nat :=
  let value := units m * stepsPerOne
  let c := value / (width * unitsPerOne)
  match readsBack m (c * width), readsBack m ((c + 1) * width) with
  | false, false => none
  | true, false => some c
  | false, true => some (c + 1)
  | true, true =>
    match compare (2 * value) ((2 * c + 1) * (width * unitsPerOne)) with
    | .lt => some c
    | .gt => some (c + 1)
    | .eq => some (if c % 2 = 0 then c else c + 1)

/-- How many digits the whole steps of a magnitude have. -/
def wholeDigits (m : Nat) : Nat :=
  let whole := units m * stepsPerOne / unitsPerOne
  greatest (fun k => Nat.pow 10 k ≤ whole) 10 0 + 1

/-- The decimal of `n` digits that reads back as a magnitude of so many whole digits, if one
does. -/
def decimalOfLength? (m whole n : Nat) : Option Decimal :=
  (neighbour? m (Nat.pow 10 (whole - n))).map fun c => ⟨c, (whole - n : Nat) - 340⟩

/-- The shortest decimal of a magnitude. Seventeen digits always read back, so the search
ends before the last alternative. -/
def shortest (m : Nat) : Decimal :=
  let whole := wholeDigits m
  if m = 0 then ⟨0, 0⟩
  else (((List.range' 1 17).findSome? (decimalOfLength? m whole)).getD
    ⟨units m * stepsPerOne / unitsPerOne, -340⟩).strip

end Binary64
end Munch
