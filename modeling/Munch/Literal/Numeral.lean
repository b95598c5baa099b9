import Munch.Fault
import Munch.LimbNat

/-!
# Whole numerals

A number is a run of digits; a natural is a plus sign with a run of digits after it.
-/
namespace Munch.Literal.Numeral

/-- The length of the run of digits at the head of a text. -/
def digitsLength (s : Bytes) : Nat := (s.takeWhile Byte.isDigit).length

def numberExtent (s : Bytes) : Nat := digitsLength s

def naturalExtent : Bytes → Nat
  | [] => 0
  | b :: s => if b = 0x2B ∧ digitsLength s ≠ 0 then 1 + digitsLength s else 0

def readNumber (s : Bytes) : Except Refusal LimbNat :=
  match LimbNat.parse? s with
  | some n => .ok n
  | none => .error ⟨.malformedInteger, 0⟩

/-- Reads the digits after the sign. -/
def readNatural (s : Bytes) : Except Refusal LimbNat :=
  (readNumber (s.drop 1)).mapError (Refusal.shift 1)

end Munch.Literal.Numeral
