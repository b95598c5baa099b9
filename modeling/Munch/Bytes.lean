/-!
# Byte strings

Sources, lexemes and printed texts are lists of bytes. This module has the byte classes
that the lexical rules are built from and the decimal text of a natural number.

## Main definitions

* `Byte`, `Bytes`: one byte, and a text as the list of its bytes.
* `Byte.isDigit`, `Byte.isLetter`, `Byte.isWhite`, `Byte.isOperator`: the byte classes.
* `Bytes.ascii`: the bytes of a text written in ASCII.
* `Bytes.decimal`, `Bytes.ofDecimal`: writing and reading a natural number in base ten.
-/
namespace Munch

abbrev Byte := UInt8

abbrev Bytes := List Byte

namespace Byte

def newline : Byte := 0x0A
def quote : Byte := 0x22
def slash : Byte := 0x2F
def backslash : Byte := 0x5C

def isDigit (b : Byte) : Bool := 0x30 ≤ b && b ≤ 0x39

def isLetter (b : Byte) : Bool :=
  (0x61 ≤ b && b ≤ 0x7A) || (0x41 ≤ b && b ≤ 0x5A)

/-- Space, and the five controls from tab to carriage return. -/
def isWhite (b : Byte) : Bool := b == 0x20 || (0x09 ≤ b && b ≤ 0x0D)

/-- A byte `10xxxxxx`, which continues a UTF-8 sequence. -/
def isContinuation (b : Byte) : Bool := b &&& 0xC0 == 0x80

/-- The digit that stands for `d`, for `d` below ten. -/
def digit (d : Nat) : Byte := 0x30 + d.toUInt8

/-- The number a digit stands for. -/
def digitValue (b : Byte) : Nat := b.toNat - 0x30

/-- One hexadecimal digit in lower case, for `d` below sixteen. -/
def hexDigit (d : Byte) : Byte := if d < 10 then 0x30 + d else 0x57 + d

end Byte

namespace Bytes

/-- The bytes of a text whose characters are all ASCII. -/
def ascii (s : String) : Bytes := s.toList.map fun c => c.toNat.toUInt8

/-- The two lower-case hexadecimal digits of a byte. -/
def hex (b : Byte) : Bytes := [Byte.hexDigit (b >>> 4), Byte.hexDigit (b &&& 0x0F)]

/-- Decimal digits of a number, the most significant first, with no leading zero. -/
def decimal (n : Nat) : Bytes :=
  if n < 10 then [Byte.digit n] else decimal (n / 10) ++ [Byte.digit (n % 10)]

/-- The number that a list of digits writes in base ten; zero for the empty list. -/
def ofDecimal (s : Bytes) : Nat := s.foldl (fun n b => 10 * n + b.digitValue) 0

/-- A text handed over in zero-terminated form ends before its first zero byte. -/
def untilZero (s : Bytes) : Bytes := s.takeWhile (· ≠ 0)

end Bytes

/-- The bytes an operator label is made of. -/
def Byte.isOperator (b : Byte) : Bool := (Bytes.ascii "!#$%&*+./<=>?@\\^|-~").contains b

/-- What holds of the first bytes, value by value, holds of a byte that is one of them. -/
theorem Byte.of_forall_fin {p : Byte → Prop} {n : Nat} (h : ∀ i : Fin n, p (UInt8.ofNat i))
    {b : Byte} (hb : b.toNat < n) : p b := by
  have hvalue := h ⟨b.toNat, hb⟩
  rwa [UInt8.ofNat_toNat] at hvalue

theorem Byte.isContinuation_iff (b : Byte) : b.isContinuation = true ↔ 0x80 ≤ b ∧ b < 0xC0 := by
  refine of_forall_fin (p := fun b => b.isContinuation = true ↔ 0x80 ≤ b ∧ b < 0xC0) ?_ b.toNat_lt
  decide +kernel

namespace Bytes

theorem ofDecimal_append_digit (s : Bytes) (b : Byte) :
    ofDecimal (s ++ [b]) = 10 * ofDecimal s + b.digitValue := by
  simp [ofDecimal]

theorem digitValue_digit {d : Nat} (h : d < 10) : (Byte.digit d).digitValue = d := by
  have : ∀ d : Fin 10, (Byte.digit d.val).digitValue = d.val := by decide
  exact this ⟨d, h⟩

theorem isDigit_digit {d : Nat} (h : d < 10) : (Byte.digit d).isDigit = true := by
  have : ∀ d : Fin 10, (Byte.digit d.val).isDigit = true := by decide
  exact this ⟨d, h⟩

/-- Reading the decimal text of a number gives it back. -/
theorem ofDecimal_decimal (n : Nat) : ofDecimal (decimal n) = n := by
  fun_induction decimal n with
  | case1 n h => simp [ofDecimal, digitValue_digit h]
  | case2 n h ih =>
    rw [ofDecimal_append_digit, ih, digitValue_digit (Nat.mod_lt _ (by decide))]
    omega

theorem isDigit_of_mem_decimal {n : Nat} {b : Byte} (h : b ∈ decimal n) :
    b.isDigit = true := by
  fun_induction decimal n with
  | case1 n hn => simp at h; exact h ▸ isDigit_digit hn
  | case2 n hn ih =>
    rcases List.mem_append.1 h with h | h
    · exact ih h
    · simp at h; exact h ▸ isDigit_digit (Nat.mod_lt _ (by decide))

theorem decimal_ne_nil (n : Nat) : decimal n ≠ [] := by
  fun_induction decimal n <;> simp

end Bytes
end Munch
