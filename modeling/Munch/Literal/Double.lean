import Munch.Literal.Numeral
import Munch.Binary64.Nearest

/-!
# Double literals

A double literal is a run of digits, then possibly a point with digits after it, then
possibly an `e` or `E` with a sign or none and digits after it. As the extent of a literal a
part that is incomplete is left out; as a text to read it is a fault.

## Main definitions

* `Double.extent`: the length of the literal at the head of a source.
* `Double.Parts`, `Double.Parts.read`: the parts of a literal that is the whole text.
* `Double.Parts.leading`: the number at the head of a text, and where it ends.
* `Double.read`: the nearest binary64 number to the literal's value.
-/
namespace Munch.Literal.Double

open Numeral (digitsLength)

/-! ## Extent -/

/-- The length of a point and the digits after it; zero unless there are some. -/
def fractionExtent : Bytes → Nat
  | [] => 0
  | b :: s => if b = 0x2E ∧ digitsLength s ≠ 0 then 1 + digitsLength s else 0

def isExponentMark (b : Byte) : Bool := b == 0x65 || b == 0x45

def isSign (b : Byte) : Bool := b == 0x2B || b == 0x2D

/-- One if a sign stands at the head, zero if not. -/
def signLength (s : Bytes) : Nat := ((s.take 1).takeWhile isSign).length

/-- The length of an exponent mark, its sign and its digits; zero unless there are digits. -/
def exponentExtent : Bytes → Nat
  | [] => 0
  | b :: s =>
    let digits := digitsLength (s.drop (signLength s))
    if isExponentMark b ∧ digits ≠ 0 then 1 + signLength s + digits else 0

/-- The length of the double literal at the head of a source; zero if there is none. -/
def extent (s : Bytes) : Nat :=
  let whole := digitsLength s
  if whole = 0 then 0
  else
    let fraction := fractionExtent (s.drop whole)
    whole + fraction + exponentExtent (s.drop (whole + fraction))

/-! ## Reading -/

/-- The digits of a literal and the sign of its exponent; a part that is not written has no
digits. -/
structure Parts where
  whole : Bytes
  fraction : Bytes
  isSmall : Bool
  power : Bytes
deriving DecidableEq, Repr

namespace Parts

/-- The digits of both sides of the point as one number. -/
def digits (p : Parts) : Nat := Bytes.ofDecimal (p.whole ++ p.fraction)

/-- The power of ten that the last digit counts. -/
def exponent (p : Parts) : Int :=
  let power : Int := Bytes.ofDecimal p.power
  (if p.isSmall then -power else power) - p.fraction.length

/-- Splits a run of digits from a text. -/
def splitDigits (s : Bytes) : Bytes × Bytes := s.span Byte.isDigit

/-- The digits after a point, if one stands at the head. -/
def readFraction (s : Bytes) (index : Nat) : Except Refusal (Bytes × Bytes) :=
  match s with
  | [] => .ok ([], [])
  | b :: rest =>
    if b = 0x2E then
      let (digits, rest) := splitDigits rest
      if digits = [] then .error ⟨.missingFraction, index + 1⟩ else .ok (digits, rest)
    else .ok ([], s)

/-- The sign and digits after an exponent mark, if one stands at the head. -/
def readPower (s : Bytes) (index : Nat) : Except Refusal (Bool × Bytes × Bytes) :=
  match s with
  | [] => .ok (false, [], [])
  | b :: rest =>
    if isExponentMark b then
      let signed := signLength rest
      let (digits, after) := splitDigits (rest.drop signed)
      if digits = [] then .error ⟨.missingExponent, index + 1 + signed⟩
      else .ok (rest.head? == some 0x2D, digits, after)
    else .ok (false, [], s)

/-- The parts of a text that is one double literal. Otherwise the fault is at the end of
what could have begun a literal. -/
def read (s : Bytes) : Except Refusal Parts :=
  let (whole, afterWhole) := splitDigits s
  if whole = [] then .error ⟨.malformedDouble, 0⟩
  else do
    let (fraction, afterFraction) ← readFraction afterWhole (s.length - afterWhole.length)
    let (isSmall, power, rest) ← readPower afterFraction (s.length - afterFraction.length)
    if rest = [] then .ok ⟨whole, fraction, isSmall, power⟩
    else .error ⟨.trailingCharacters, s.length - rest.length⟩

/-- What stands behind a point at the head, digits or not. -/
def afterPoint (s : Bytes) : Bytes × Bytes :=
  match s with
  | [] => ([], [])
  | b :: rest => if b = 0x2E then splitDigits rest else ([], s)

/-- The number at the head of a text that begins with a digit, and the length of its text. A
point belongs to it also without digits behind it, and an exponent that is incomplete does
not. -/
def leading (s : Bytes) : Parts × Nat :=
  let (whole, afterWhole) := splitDigits s
  let (fraction, afterFraction) := afterPoint afterWhole
  let (isSmall, power, rest) :=
    (readPower afterFraction 0).toOption.getD (false, [], afterFraction)
  (⟨whole, fraction, isSmall, power⟩, s.length - rest.length)

theorem afterPoint_of_readFraction {s : Bytes} {index : Nat} {r : Bytes × Bytes}
    (h : readFraction s index = .ok r) : afterPoint s = r := by
  unfold readFraction at h
  unfold afterPoint
  grind

theorem readPower_zero {s : Bytes} {index : Nat} {r : Bool × Bytes × Bytes}
    (h : readPower s index = .ok r) : readPower s 0 = .ok r := by
  unfold readPower at h ⊢
  grind

/-- A text that is one literal is all of the number at its head. -/
theorem leading_of_read {s : Bytes} {p : Parts} (h : Parts.read s = .ok p) :
    leading s = (p, s.length) := by
  unfold Parts.read at h
  dsimp only at h
  split at h
  · cases h
  · cases hfraction : readFraction (splitDigits s).2 (s.length - (splitDigits s).2.length) with
    | error => simp [hfraction, bind, Except.bind] at h
    | ok r =>
      obtain ⟨fraction, afterFraction⟩ := r
      simp only [hfraction, bind, Except.bind] at h
      cases hpower : readPower afterFraction (s.length - afterFraction.length) with
      | error => simp [hpower] at h
      | ok r =>
        obtain ⟨isSmall, power, rest⟩ := r
        simp only [hpower] at h
        split at h
        · subst rest
          cases h
          simp [leading, afterPoint_of_readFraction hfraction, readPower_zero hpower,
            Except.toOption]
        · cases h

end Parts

/-- The nearest binary64 number to the value that a text writes. The text is one literal, and
the number at its head has to be all of it. -/
def read (s : Bytes) : Except Refusal Binary64 := do
  let _ ← Parts.read s
  let (parts, length) := Parts.leading s
  if length ≠ s.length then .error ⟨.malformedDouble, 0⟩
  else
    match Binary64.ofDecimal? parts.digits parts.exponent with
    | some d => .ok d
    | none => .error ⟨.outOfRange, 0⟩

/-- The check of where the number at the head ends never refuses a literal. -/
theorem read_eq (s : Bytes) : read s = (Parts.read s).bind fun parts =>
    match Binary64.ofDecimal? parts.digits parts.exponent with
    | some d => .ok d
    | none => .error ⟨.outOfRange, 0⟩ := by
  cases h : Parts.read s with
  | error => simp [read, h, bind, Except.bind]
  | ok parts =>
    simp [read, h, Parts.leading_of_read h, bind, Except.bind]

end Munch.Literal.Double
