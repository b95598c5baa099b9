import Munch.Bytes

/-!
# Binary64 numbers

A binary64 number is its 64 bits. The 63 bits below the sign, read as one number, are its
magnitude. Magnitudes are in the order of the values they stand for, and every finite value
is a whole multiple of the least one, 2⁻¹⁰⁷⁴; `Binary64.units` counts how many.
-/
namespace Munch

structure Binary64 where
  bits : UInt64
deriving DecidableEq, Repr

namespace Binary64

-- Powers are `Nat.pow` here, since with Mathlib in scope `^` is the power of a monoid.

def isNegative (d : Binary64) : Bool := Nat.pow 2 63 ≤ d.bits.toNat

/-- The bits below the sign as one number. -/
def magnitude (d : Binary64) : Nat := d.bits.toNat % Nat.pow 2 63

/-- The magnitude of infinity: every exponent bit set and no fraction bit. -/
def infinity : Nat := 0x7FF * Nat.pow 2 52

def isFinite (d : Binary64) : Bool := d.magnitude < infinity

def isNaN (d : Binary64) : Bool := infinity < d.magnitude

/-- The number with the sign clear and the given magnitude. -/
def ofMagnitude (m : Nat) : Binary64 := ⟨m.toUInt64⟩

/-- The value of a magnitude as a multiple of 2⁻¹⁰⁷⁴. The magnitude of infinity continues
the scale as 2¹⁰²⁴. -/
def units (m : Nat) : Nat :=
  let exponent := m / Nat.pow 2 52
  let fraction := m % Nat.pow 2 52
  if exponent = 0 then fraction else (Nat.pow 2 52 + fraction) * Nat.pow 2 (exponent - 1)

/-- One over the least positive value. -/
def unitsPerOne : Nat := Nat.pow 2 1074

end Binary64
end Munch
