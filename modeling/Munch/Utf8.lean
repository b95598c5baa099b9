import Munch.Bytes

/-!
# Well-formed UTF-8

Which bytes may follow a lead byte is a table of ranges. It excludes overlong forms,
surrogates and everything above U+10FFFF. A code point stands at the head of a text when
every range of its lead is met; the first place where none stands is the text's fault.

## Main definitions

* `Utf8.followers`: the ranges of the bytes after a lead byte.
* `Utf8.codePointLength?`: the length of the code point at the head of a text.
* `Utf8.illFormedLength`: how much of an ill-formed head belongs together.
* `Utf8.firstFault?`, `Utf8.isWellFormed`: the first ill-formed place of a text, if any.
* `Utf8.IsText`: the text is the encoding of a list of characters.
-/
namespace Munch.Utf8

/-- The length that the leading bits of a byte announce; one if they announce none. -/
def announcedLength (lead : Byte) : Nat :=
  if lead < 0x80 then 1
  else if lead &&& 0xE0 == 0xC0 then 2
  else if lead &&& 0xF0 == 0xE0 then 3
  else if lead &&& 0xF8 == 0xF0 then 4
  else 1

/-- The inclusive ranges, in order, of the bytes that complete a code point after `lead`;
`none` for a byte that begins no code point. -/
def followers (lead : Byte) : Option (List (Byte × Byte)) :=
  if lead < 0x80 then some []
  else if lead < 0xC2 then none
  else if lead < 0xE0 then some [(0x80, 0xBF)]
  else if lead == 0xE0 then some [(0xA0, 0xBF), (0x80, 0xBF)]
  else if lead == 0xED then some [(0x80, 0x9F), (0x80, 0xBF)]
  else if lead < 0xF0 then some [(0x80, 0xBF), (0x80, 0xBF)]
  else if lead == 0xF0 then some [(0x90, 0xBF), (0x80, 0xBF), (0x80, 0xBF)]
  else if lead < 0xF4 then some [(0x80, 0xBF), (0x80, 0xBF), (0x80, 0xBF)]
  else if lead == 0xF4 then some [(0x80, 0x8F), (0x80, 0xBF), (0x80, 0xBF)]
  else none

/-- How many of the ranges the bytes of a text meet before the first that fails. -/
def matched : List (Byte × Byte) → Bytes → Nat
  | (low, high) :: ranges, b :: s => if low ≤ b ∧ b ≤ high then matched ranges s + 1 else 0
  | _, _ => 0

/-- The length of the code point at the head of a text, if a whole one stands there. -/
def codePointLength? : Bytes → Option Nat
  | [] => none
  | lead :: s =>
    (followers lead).bind fun ranges =>
      if matched ranges s = ranges.length then some (ranges.length + 1) else none

/-- The length of the longest head that could have begun a code point: a lead byte with the
bytes after it that meet its ranges, or one byte that begins none. -/
def illFormedLength : Bytes → Nat
  | [] => 0
  | lead :: s => matched ((followers lead).getD []) s + 1

theorem codePointLength?_cons_eq_some {lead : Byte} {s : Bytes} {n : Nat} :
    codePointLength? (lead :: s) = some n ↔ ∃ ranges, followers lead = some ranges ∧
      matched ranges s = ranges.length ∧ n = ranges.length + 1 := by
  simp only [codePointLength?, Option.bind_eq_some_iff]
  refine exists_congr fun ranges => and_congr_right fun _ => ?_
  split <;> simp_all [eq_comm]

theorem codePointLength?_pos {s : Bytes} {n : Nat} (h : codePointLength? s = some n) :
    0 < n := by
  cases s with
  | nil => cases h
  | cons lead s =>
    obtain ⟨ranges, -, -, rfl⟩ := codePointLength?_cons_eq_some.1 h
    exact Nat.succ_pos _

theorem matched_le_length (ranges : List (Byte × Byte)) (s : Bytes) :
    matched ranges s ≤ s.length := by
  fun_induction matched ranges s <;> simp_all

/-- A code point at the head of a text lies inside it. -/
theorem codePointLength?_le {s : Bytes} {n : Nat} (h : codePointLength? s = some n) :
    n ≤ s.length := by
  cases s with
  | nil => cases h
  | cons lead s =>
    obtain ⟨ranges, -, hmatched, rfl⟩ := codePointLength?_cons_eq_some.1 h
    exact Nat.succ_le_succ (hmatched ▸ matched_le_length ranges s)

theorem illFormedLength_pos (b : Byte) (s : Bytes) : 0 < illFormedLength (b :: s) := by
  simp [illFormedLength]

/-- The fault of a text that begins at `index`. -/
def faultFrom (index : Nat) (s : Bytes) : Option Nat :=
  if s = [] then none
  else
    match _h : codePointLength? s with
    | none => some index
    | some n => faultFrom (index + n) (s.drop n)
termination_by s.length
decreasing_by
  have := codePointLength?_pos ‹codePointLength? s = some n›
  have := List.length_pos_iff.2 ‹s ≠ []›
  simp only [List.length_drop]
  omega

theorem faultFrom_nil (index : Nat) : faultFrom index [] = none := by simp [faultFrom]

theorem faultFrom_of_none {s : Bytes} (hs : s ≠ []) (h : codePointLength? s = none)
    (index : Nat) : faultFrom index s = some index := by
  rw [faultFrom, if_neg hs]; split <;> simp_all

theorem faultFrom_of_some {s : Bytes} {n : Nat} (h : codePointLength? s = some n)
    (index : Nat) : faultFrom index s = faultFrom (index + n) (s.drop n) := by
  have hs : s ≠ [] := by rintro rfl; simp [codePointLength?] at h
  rw [faultFrom, if_neg hs]; split <;> simp_all

/-- The index of the first byte at which no code point begins, reading code point by code
point from the head. -/
def firstFault? (s : Bytes) : Option Nat := faultFrom 0 s

def isWellFormed (s : Bytes) : Bool := (firstFault? s).isNone

/-- The text is the encoding of some list of characters. -/
def IsText (s : Bytes) : Prop := ∃ cs : List Char, cs.flatMap String.utf8EncodeChar = s

/-- The piece of a text that a report shows: the code point at its head, or one byte where
none stands. -/
def fragment (s : Bytes) : Bytes := s.take ((codePointLength? s).getD 1)

end Munch.Utf8
