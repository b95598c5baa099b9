import Munch.Bytes

/-!
# Natural numbers in limbs of nine decimal digits

A number is a list of machine words below 10⁹, the least significant first and with no zero
word at the end; zero is the empty list. Arithmetic on limbs is arithmetic on words. The
view `LimbNat.toNat` says which number the limbs stand for.

## Main definitions

* `LimbNat`, `LimbNat.toNat`, `LimbNat.Canonical`: the words, their value, their normal form.
* `LimbNat.ofUInt64`, `LimbNat.toUInt64`, `LimbNat.fitsUInt64`: the way to one word and back.
* `LimbNat.parse`, `LimbNat.decimal`: reading and writing decimal text.
* `LimbNat.compare`: the order of the values.
-/
namespace Munch

structure LimbNat where
  limbs : List UInt32
deriving DecidableEq, Repr

namespace LimbNat

/-- Every limb is below this number. -/
def base : UInt64 := 1000000000

def zero : LimbNat := ⟨[]⟩

instance : Inhabited LimbNat := ⟨zero⟩

/-- The number that a list of limbs stands for. -/
def valueOf (limbs : List UInt32) : Nat :=
  limbs.foldr (fun limb n => limb.toNat + 1000000000 * n) 0

def toNat (x : LimbNat) : Nat := valueOf x.limbs

/-- The normal form: limbs below the base, and none at the end that is zero. -/
def Canonical (x : LimbNat) : Prop :=
  (∀ limb ∈ x.limbs, limb.toNat < 1000000000) ∧ x.limbs.getLast? ≠ some 0

def isZero (x : LimbNat) : Bool := x.limbs.isEmpty

/-! ## One machine word -/

def limbsOfUInt64 (v : UInt64) : List UInt32 :=
  if v = 0 then [] else (v % base).toUInt32 :: limbsOfUInt64 (v / base)
termination_by v.toNat
decreasing_by
  rename_i h
  have hv : v.toNat ≠ 0 := fun e => h (UInt64.toNat_inj.1 (by simpa using e))
  rw [UInt64.toNat_div, show base.toNat = 1000000000 from rfl]
  omega

def ofUInt64 (v : UInt64) : LimbNat := ⟨limbsOfUInt64 v⟩

/-- The value modulo 2⁶⁴. -/
def toUInt64 (x : LimbNat) : UInt64 :=
  x.limbs.foldr (fun limb v => v * base + limb.toUInt64) 0

/-! ## Order -/

/-- Compares two lists of limbs of one length, the most significant limb first. -/
def compareFromTop : List UInt32 → List UInt32 → Ordering
  | a :: as, b :: bs => if a = b then compareFromTop as bs else if a < b then .lt else .gt
  | _, _ => .eq

/-- More limbs make the greater number; among equally many the first difference from the
top decides. -/
def compare (x y : LimbNat) : Ordering :=
  if x.limbs.length < y.limbs.length then .lt
  else if y.limbs.length < x.limbs.length then .gt
  else compareFromTop x.limbs.reverse y.limbs.reverse

instance : Ord LimbNat := ⟨compare⟩

instance : LT LimbNat := ⟨fun x y => x.compare y = .lt⟩

instance (x y : LimbNat) : Decidable (x < y) := inferInstanceAs (Decidable (x.compare y = .lt))

def fitsUInt64 (x : LimbNat) : Bool := x.compare (ofUInt64 0xFFFFFFFFFFFFFFFF) != .gt

/-! ## Decimal text -/

/-- Multiplies limbs by a word and adds a carry, both at the least significant end. -/
def mulAdd (scale : UInt32) : List UInt32 → UInt64 → List UInt32
  | [], carry => if carry = 0 then [] else [carry.toUInt32]
  | limb :: limbs, carry =>
    let x := limb.toUInt64 * scale.toUInt64 + carry
    (x % base).toUInt32 :: mulAdd scale limbs (x / base)

/-- Reads a run of at most nine digits into its value and the power of ten of its length. -/
def chunk? (s : Bytes) : Option (UInt32 × UInt32) :=
  s.foldlM (fun (value, scale) b =>
    if b.isDigit then some (value * 10 + (b - 0x30).toUInt32, scale * 10) else none) (0, 1)

/-- Continues a number with the digits of a text, nine at a time: the limbs it ends with, and
whether all of the text was digits. At another byte the number is reset to zero. -/
def appendDigits (limbs : List UInt32) (s : Bytes) : List UInt32 × Bool :=
  if s = [] then (limbs, true)
  else
    match chunk? (s.take 9) with
    | none => ([], false)
    | some (value, scale) => appendDigits (mulAdd scale limbs value.toUInt64) (s.drop 9)
termination_by s.length
decreasing_by
  have := List.length_pos_iff.2 ‹s ≠ []›
  simp only [List.length_drop]
  omega

def normalize (limbs : List UInt32) : List UInt32 :=
  (limbs.reverse.dropWhile (· = 0)).reverse

/-- The number that reading a text leaves, and whether the text was one or more decimal
digits. -/
def parse (s : Bytes) : LimbNat × Bool :=
  if s = [] then (zero, false)
  else
    match appendDigits [] s with
    | (limbs, true) => (⟨normalize limbs⟩, true)
    | (limbs, false) => (⟨limbs⟩, false)

/-- Reads a text of one or more decimal digits; any other text is refused. -/
def parse? (s : Bytes) : Option LimbNat := if (parse s).2 then some (parse s).1 else none

/-- The number that reading a text leaves, be it refused or not. -/
def ofText (s : Bytes) : LimbNat := (parse s).1

/-- A limb below the top is written with all nine digits. -/
def padded (limb : UInt32) : Bytes :=
  let digits := Bytes.decimal limb.toNat
  List.replicate (9 - digits.length) 0x30 ++ digits

def decimal (x : LimbNat) : Bytes :=
  match x.limbs.reverse with
  | [] => [0x30]
  | top :: rest => Bytes.decimal top.toNat ++ rest.flatMap padded

theorem appendDigits_of_refused (limbs : List UInt32) (s : Bytes)
    (h : (appendDigits limbs s).2 = false) : (appendDigits limbs s).1 = [] := by
  fun_induction appendDigits limbs s with
  | case1 => cases h
  | case2 => rfl
  | case3 limbs s hne value scale hchunk ih => exact ih h

/-- A text that is refused leaves zero. -/
theorem ofText_eq (s : Bytes) : ofText s = (parse? s).getD zero := by
  have hrefused := appendDigits_of_refused [] s
  rw [parse?, ofText, parse]
  split
  · rfl
  · split
    · rfl
    · rename_i limbs happend
      rw [happend] at hrefused
      exact congrArg mk (hrefused rfl)

theorem canonical_zero : zero.Canonical := by simp [Canonical, zero]

@[simp] theorem valueOf_nil : valueOf [] = 0 := rfl

@[simp] theorem valueOf_cons (limb : UInt32) (limbs : List UInt32) :
    valueOf (limb :: limbs) = limb.toNat + 1000000000 * valueOf limbs := rfl

end LimbNat
end Munch
