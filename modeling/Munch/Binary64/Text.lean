import Munch.Binary64.Shortest

/-!
# The text of a binary64 number

The digits of a number are written positionally or with an exponent. A style says from which
power of ten on the exponent is written; small values change over below 10⁻⁴ in every style.
A style also says what stands behind a value that is written positionally and has no
fraction.
-/
namespace Munch

/-- Where positional text ends: values of at least `10 ^ exponentFrom` have an exponent.
Positional text without a fraction ends in `wholeMark`. -/
structure DecimalStyle where
  exponentFrom : Int
  wholeMark : Bytes
deriving DecidableEq, Repr

namespace DecimalStyle

/-- Token listings write sixteen places before the point, and no point behind a whole
number. -/
def listing : DecimalStyle := ⟨16, []⟩

/-- JSON numbers have fifteen places before the point, and every number has a fraction or an
exponent. -/
def json : DecimalStyle := ⟨15, .ascii ".0"⟩

/-- Digits around a point; `exponent` is the power of ten of the first digit. -/
def positional (style : DecimalStyle) (digits : Bytes) (exponent : Int) : Bytes :=
  match exponent with
  | .ofNat e =>
    let fraction := digits.drop (e + 1)
    digits.take (e + 1) ++ List.replicate (e + 1 - digits.length) 0x30 ++
      (if fraction = [] then style.wholeMark else Bytes.ascii "." ++ fraction)
  | .negSucc e => Bytes.ascii "0." ++ List.replicate e 0x30 ++ digits

/-- One digit before the point, and the exponent with its sign and two digits or more. -/
def scientific (digits : Bytes) (exponent : Int) : Bytes :=
  let fraction := digits.drop 1
  let power := Bytes.decimal exponent.natAbs
  digits.take 1 ++ (if fraction = [] then [] else Bytes.ascii "." ++ fraction) ++
    Bytes.ascii (if exponent < 0 then "e-" else "e+") ++
    List.replicate (2 - power.length) 0x30 ++ power

def decimal (style : DecimalStyle) (x : Decimal) : Bytes :=
  let digits := Bytes.decimal x.digits
  let exponent : Int := x.exponent + (digits.length - 1 : Nat)
  if x.digits = 0 then Bytes.ascii "0" ++ style.wholeMark
  else if -4 ≤ exponent ∧ exponent < style.exponentFrom then style.positional digits exponent
  else scientific digits exponent

end DecimalStyle

namespace Binary64

def sign (d : Binary64) : Bytes := if d.isNegative then Bytes.ascii "-" else []

/-- The text of a number that is neither infinite nor a NaN, given the digits to write for
its magnitude. -/
def finiteText (digits : Nat → Decimal) (style : DecimalStyle) (d : Binary64) : Bytes :=
  d.sign ++ style.decimal (digits d.magnitude)

/-- The text of any number, with its shortest digits. Infinities have a sign, and a NaN has
none. -/
def text (style : DecimalStyle) (d : Binary64) : Bytes :=
  if d.isNaN then Bytes.ascii "nan"
  else if d.isFinite then d.finiteText shortest style
  else d.sign ++ Bytes.ascii "inf"

end Binary64
end Munch
