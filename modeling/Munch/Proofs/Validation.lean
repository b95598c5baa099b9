import Mathlib.Tactic.Ring
import Munch.Proofs.CodePoint

/-!
# Checking UTF-8

The check of a text is exact: it accepts the encodings of characters and nothing else, and it stops
behind the longest row of characters at the head. The table of ranges that it reads is one of two
ways to check one code point. The other reads the number that the bits of the bytes write and asks
whether this number is one of a character and needs that many bytes; both accept the same.

## Main definitions

* `Utf8.number`, `Utf8.isCharacter`: the number that bytes write, and whether it is admitted.
* `Utf8.numberedLength?`: the length of the code point at the head of a text, by its number.
* `Utf8.IsFault`: where a text stops to be well-formed.
-/
namespace Munch.Utf8

/-! ## The number of a code point -/

/-- The bits of a lead byte of `n` bytes behind those that announce the length. -/
def leadBits (n : Nat) (lead : Byte) : UInt32 := lead.toUInt32 &&& (0xFF >>> UInt32.ofNat (n + 1))

/-- Each byte behind the first one adds its low six bits. -/
def addTail (v : UInt32) (b : Byte) : UInt32 := v <<< 6 ||| (b &&& 0x3F).toUInt32

/-- The number that a lead byte of `n` bytes and the bytes behind it write. -/
def number (n : Nat) (lead : Byte) (tails : Bytes) : UInt32 := tails.foldl addTail (leadBits n lead)

/-- The number needs as many as `n` bytes, and it is neither a surrogate nor above U+10FFFF. -/
def isCharacter (n : Nat) (v : UInt32) : Bool :=
  !((n == 3 && v < 0x800) || (n == 4 && v < 0x10000) || (0xD800 ≤ v && v ≤ 0xDFFF) ||
    0x10FFFF < v)

/-- The length of the code point at the head of a text, if a whole one stands there: the lead byte
announces it, the bytes behind it continue the sequence, and the number is one of a character. No
number that needs two bytes begins with 0xC0 or 0xC1. -/
def numberedLength? : Bytes → Option Nat
  | [] => none
  | lead :: s =>
    let n := announcedLength lead
    let tails := s.take (n - 1)
    if lead < 0x80 then some 1
    else if n = 1 ∨ lead = 0xC0 ∨ lead = 0xC1 ∨ 0xF4 < lead ∨ s.length + 1 < n then none
    else if tails.all Byte.isContinuation && isCharacter n (number n lead tails) then some n
    else none

theorem toNat_leadBits {n : Nat} (hn : n < 7) (lead : Byte) :
    (leadBits n lead).toNat = lead.toNat % 2 ^ (7 - n) := by
  have hmask : (0xFF >>> UInt32.ofNat (n + 1) : UInt32).toNat = 2 ^ (7 - n) - 1 := by
    have hall : ∀ n : Fin 7,
        (0xFF >>> UInt32.ofNat (n.val + 1) : UInt32).toNat = 2 ^ (7 - n.val) - 1 := by decide
    exact hall ⟨n, hn⟩
  rw [leadBits, UInt32.toNat_and, hmask, UInt8.toNat_toUInt32, Nat.and_two_pow_sub_one_eq_mod]

theorem toNat_addTail {v : UInt32} (h : v.toNat < 2 ^ 26) (b : Byte) :
    (addTail v b).toNat = v.toNat * 64 + b.toNat % 64 := by
  have hlow : (b &&& 0x3F).toNat = b.toNat % 64 := Nat.and_two_pow_sub_one_eq_mod b.toNat 6
  have hshift : (v <<< 6).toNat = v.toNat <<< 6 := by
    rw [UInt32.toNat_shiftLeft]
    simp [Nat.shiftLeft_eq]
    omega
  rw [addTail, UInt32.toNat_or, UInt8.toNat_toUInt32, hlow, hshift,
    ← Nat.shiftLeft_add_eq_or_of_lt (by omega), Nat.shiftLeft_eq]

/-- The number of at most four bytes fits into its word, so each byte moves the others by six
bits. -/
theorem toNat_foldl_addTail {tails : Bytes} {v : UInt32}
    (h : (v.toNat + 1) * 64 ^ tails.length ≤ 2 ^ 32) : (tails.foldl addTail v).toNat =
      tails.foldl (fun n b => n * 64 + b.toNat % 64) v.toNat := by
  induction tails generalizing v with
  | nil => rfl
  | cons b tails ih =>
    have hpos : 0 < 64 ^ tails.length := Nat.pow_pos (by decide)
    have hsplit : (v.toNat + 1) * 64 ^ (b :: tails).length =
        ((v.toNat + 1) * 64) * 64 ^ tails.length := by
      rw [List.length_cons, Nat.pow_succ]
      ring
    rw [hsplit] at h
    have hle : (v.toNat + 1) * 64 ≤ 2 ^ 32 := (Nat.le_mul_of_pos_right _ hpos).trans h
    have hstep := toNat_addTail (v := v) (by omega) b
    rw [List.foldl_cons, List.foldl_cons, ih, hstep]
    refine le_trans (Nat.mul_le_mul_right _ ?_) h
    omega

theorem toNat_number {n : Nat} (hn : n ≤ 4) (a : Byte) (tails : Bytes)
    (hlength : tails.length + 1 = n) : (number n a tails).toNat =
      tails.foldl (fun m b => m * 64 + b.toNat % 64) (a.toNat % 2 ^ (7 - n)) := by
  have hlead := toNat_leadBits (n := n) (by omega) a
  rw [number, toNat_foldl_addTail, hlead]
  have hpow : (2 : Nat) ^ (7 - n) * 64 ^ tails.length ≤ 2 ^ 32 := by
    obtain ⟨k, hk⟩ : ∃ k : Fin 4, tails.length = k := ⟨⟨tails.length, by omega⟩, rfl⟩
    have hall : ∀ k : Fin 4, 2 ^ (7 - (k.val + 1)) * 64 ^ k.val ≤ 2 ^ 32 := by decide
    rw [← hlength, hk]
    exact hall k
  refine le_trans (Nat.mul_le_mul_right _ ?_) hpow
  rw [hlead]
  exact Nat.mod_lt _ (Nat.pow_pos (by decide))

/-- Among the bytes that begin a code point of several bytes, each row of the table announces its
length. -/
theorem announcedLength_cases {a : Byte} (h : 0xC2 ≤ a) (h' : a ≤ 0xF4) :
    announcedLength a = 2 ∧ a < 0xE0 ∨ announcedLength a = 3 ∧ 0xE0 ≤ a ∧ a < 0xF0 ∨
      announcedLength a = 4 ∧ 0xF0 ≤ a := by
  revert h h'
  refine Byte.of_forall_fin (p := fun a => 0xC2 ≤ a → a ≤ 0xF4 → announcedLength a = 2 ∧ a < 0xE0 ∨
    announcedLength a = 3 ∧ 0xE0 ≤ a ∧ a < 0xF0 ∨ announcedLength a = 4 ∧ 0xF0 ≤ a) ?_ a.toNat_lt
  decide +kernel

/-- The lead bytes that are refused are those without a row. -/
theorem beginsNone_iff {a : Byte} : announcedLength a = 1 ∨ a = 0xC0 ∨ a = 0xC1 ∨ 0xF4 < a ↔
    a < 0xC2 ∨ 0xF4 < a := by
  refine Byte.of_forall_fin (p := fun a => announcedLength a = 1 ∨ a = 0xC0 ∨ a = 0xC1 ∨ 0xF4 < a ↔
    a < 0xC2 ∨ 0xF4 < a) ?_ a.toNat_lt
  decide +kernel

theorem isCharacter_iff {n : Nat} {v : UInt32} : isCharacter n v = true ↔
    (n = 3 → 0x800 ≤ v.toNat) ∧ (n = 4 → 0x10000 ≤ v.toNat) ∧
      ¬ (0xD800 ≤ v.toNat ∧ v.toNat ≤ 0xDFFF) ∧ v.toNat ≤ 0x10FFFF := by
  simp [isCharacter, UInt32.lt_iff_toNat_lt, UInt32.le_iff_toNat_le]
  omega

/-! ## The rows of the table -/

section Rows

variable {a b c d : Byte}

theorem form_two_iff (ha : 0xC2 ≤ a ∧ a < 0xE0) :
    Form [a, b] ↔ IsTail b ∧ isCharacter 2 (number 2 a [b]) = true := by
  have hvalue := toNat_number (n := 2) (by decide) a [b] rfl
  rw [isCharacter_iff]
  constructor
  · intro h
    cases h with
    | two _ hb =>
      simp [IsTail, UInt8.le_iff_toNat_le, UInt8.lt_iff_toNat_lt] at *
      omega
  · rintro ⟨hb, -⟩
    exact .two ha hb

theorem form_three_iff (ha : 0xE0 ≤ a ∧ a < 0xF0) :
    Form [a, b, c] ↔ (IsTail b ∧ IsTail c) ∧ isCharacter 3 (number 3 a [b, c]) = true := by
  have hvalue := toNat_number (n := 3) (by decide) a [b, c] rfl
  rw [isCharacter_iff]
  constructor
  · intro h
    cases h with
    | three _ hb hc hlow hhigh =>
      simp [IsTail, UInt8.le_iff_toNat_le, UInt8.lt_iff_toNat_lt, ← UInt8.toNat_inj] at *
      omega
  · rintro ⟨⟨hb, hc⟩, hchar⟩
    refine .three ha hb hc ?_ ?_ <;>
      simp [IsTail, UInt8.le_iff_toNat_le, UInt8.lt_iff_toNat_lt, ← UInt8.toNat_inj] at * <;>
      omega

theorem form_four_iff (ha : 0xF0 ≤ a ∧ a < 0xF5) : Form [a, b, c, d] ↔
    (IsTail b ∧ IsTail c ∧ IsTail d) ∧ isCharacter 4 (number 4 a [b, c, d]) = true := by
  have hvalue := toNat_number (n := 4) (by decide) a [b, c, d] rfl
  rw [isCharacter_iff]
  constructor
  · intro h
    cases h with
    | four _ hb hc hd hlow hhigh =>
      simp [IsTail, UInt8.le_iff_toNat_le, UInt8.lt_iff_toNat_lt, ← UInt8.toNat_inj] at *
      omega
  · rintro ⟨⟨hb, hc, hd⟩, hchar⟩
    refine .four ha hb hc hd ?_ ?_ <;>
      simp [IsTail, UInt8.le_iff_toNat_le, UInt8.lt_iff_toNat_lt, ← UInt8.toNat_inj] at * <;>
      omega

end Rows

variable {lead : Byte} {tails s : Bytes}

/-- A code point of several bytes has the length that its lead byte announces. -/
theorem Form.length_eq (h : Form (lead :: tails)) (hlow : 0xC2 ≤ lead) (hhigh : lead ≤ 0xF4) :
    tails.length + 1 = announcedLength lead := by
  have hrows := announcedLength_cases hlow hhigh
  cases h <;> grind

theorem form_cons_iff (hlow : 0xC2 ≤ lead) (hhigh : lead ≤ 0xF4) : Form (lead :: tails) ↔
    tails.length + 1 = announcedLength lead ∧ (∀ b ∈ tails, IsTail b) ∧
      isCharacter (announcedLength lead) (number (announcedLength lead) lead tails) = true := by
  have hrow (hlength : tails.length + 1 = announcedLength lead) : Form (lead :: tails) ↔
      (∀ b ∈ tails, IsTail b) ∧
        isCharacter (announcedLength lead) (number (announcedLength lead) lead tails) = true := by
    rcases announcedLength_cases hlow hhigh with ⟨hn, ha⟩ | ⟨hn, ha⟩ | ⟨hn, ha⟩
    · rw [hn, Nat.add_right_cancel_iff] at hlength
      obtain ⟨b, rfl⟩ := List.length_eq_one_iff.1 hlength
      simpa [hn] using form_two_iff ⟨hlow, ha⟩
    · rw [hn, Nat.add_right_cancel_iff] at hlength
      obtain ⟨b, c, rfl⟩ := List.length_eq_two.1 hlength
      simpa [hn] using form_three_iff ha
    · rw [hn, Nat.add_right_cancel_iff] at hlength
      obtain ⟨b, c, d, rfl⟩ := List.length_eq_three.1 hlength
      simpa [hn] using form_four_iff ⟨ha, by grind⟩
  constructor
  · intro h
    have hlength := h.length_eq hlow hhigh
    exact ⟨hlength, (hrow hlength).1 h⟩
  · rintro ⟨hlength, h⟩
    exact (hrow hlength).2 h

theorem codePointLength?_eq_some_iff_form {n : Nat} :
    codePointLength? s = some n ↔ n ≤ s.length ∧ Form (s.take n) := by
  constructor
  · intro h
    exact ⟨codePointLength?_le h, isCodePoint_iff_form.1 (isCodePoint_take h)⟩
  · rintro ⟨hle, hform⟩
    have hpoint := codePointLength?_append (isCodePoint_iff_form.2 hform) (s.drop n)
    rwa [List.take_append_drop, List.length_take_of_le hle] at hpoint

theorem numberedLength?_eq_some_iff {n : Nat} (hlow : 0xC2 ≤ lead) (hhigh : lead ≤ 0xF4) :
    numberedLength? (lead :: s) = some n ↔ n ≤ s.length + 1 ∧ n = announcedLength lead ∧
      (∀ b ∈ s.take (n - 1), IsTail b) ∧
        isCharacter n (number n lead (s.take (n - 1))) = true := by
  have hascii : ¬ lead < 0x80 := by grind
  have hrow : ¬ (announcedLength lead = 1 ∨ lead = 0xC0 ∨ lead = 0xC1 ∨ 0xF4 < lead) := by
    grind [beginsNone_iff]
  have hall (t : Bytes) : t.all Byte.isContinuation = true ↔ ∀ b ∈ t, IsTail b := by
    simp [IsTail, Byte.isContinuation_iff]
  rw [numberedLength?]
  grind

/-- The check by numbers and the check by ranges accept the same code points. -/
theorem numberedLength?_eq (s : Bytes) : numberedLength? s = codePointLength? s := by
  cases s with
  | nil => rfl
  | cons lead s =>
    by_cases hascii : lead < 0x80
    · simp [numberedLength?, hascii, codePointLength?, followers_one, matched]
    by_cases hrow : lead < 0xC2 ∨ 0xF4 < lead
    · -- No row of the table has the lead byte, and the other check refuses it at once.
      have hnone : followers lead = none := by grind [followers]
      have hrefused := beginsNone_iff.2 hrow
      grind [numberedLength?, codePointLength?]
    · obtain ⟨hlow, hhigh⟩ : 0xC2 ≤ lead ∧ lead ≤ 0xF4 := by grind
      ext n
      rw [numberedLength?_eq_some_iff hlow hhigh, codePointLength?_eq_some_iff_form]
      refine and_congr_right fun hle => ?_
      cases n with
      | zero => grind [announcedLength_cases, Form]
      | succ n =>
        -- The tails lie inside the text, so the row is as long as the lead byte announces.
        have hlength : (s.take n).length = n := List.length_take_of_le (by omega)
        rw [List.take_succ_cons, form_cons_iff hlow hhigh, hlength]
        refine and_congr_right fun hn => ?_
        rw [← hn, Nat.add_sub_cancel]

/-- An overlong form, a surrogate, a number above U+10FFFF and a sequence that is cut off. -/
example : [[0xE0, 0x9F, 0xBF], [0xED, 0xA0, 0x80], [0xF4, 0x90, 0x80, 0x80],
    [0xF0, 0x9F, 0x98]].map numberedLength? = [none, none, none, none] := by decide

/-! ## Faults -/

/-- Up to the index the text encodes characters, and behind it no encoded character begins. -/
structure IsFault (s : Bytes) (index : Nat) : Prop where
  lt_length : index < s.length
  isText_take : IsText (s.take index)
  not_prefix : ∀ c : Char, ¬ String.utf8EncodeChar c <+: s.drop index

theorem firstFault?_eq_some_iff_isFault {index : Nat} :
    firstFault? s = some index ↔ IsFault s index := by
  rw [firstFault?_eq_some_iff, codePointLength?_eq_none_iff, ← isText_iff_wellFormed]
  exact ⟨fun ⟨hlt, htext, hnone⟩ => ⟨hlt, htext, hnone⟩,
    fun h => ⟨h.lt_length, h.isText_take, h.not_prefix⟩⟩

theorem IsFault.unique {s : Bytes} {i j : Nat} (hi : IsFault s i) (hj : IsFault s j) : i = j :=
  Option.some.inj ((firstFault?_eq_some_iff_isFault.2 hi).symm.trans
    (firstFault?_eq_some_iff_isFault.2 hj))

theorem isWellFormed_iff {s : Bytes} : isWellFormed s = true ↔ IsText s := by
  rw [isWellFormed, Option.isNone_iff_eq_none, firstFault?_eq_none_iff, isText_iff_wellFormed]

theorem isWellFormed_eq_false_iff {s : Bytes} :
    isWellFormed s = false ↔ ∃ i, firstFault? s = some i := by
  rw [isWellFormed, Option.isNone_eq_false_iff, Option.isSome_iff_exists]

/-- The check accepts the encodings of characters and nothing else. A text that it does not accept
has one fault, which is where the check stops. At every place of the text, the number that the
bytes there write decides in the same way whether a character stands there. -/
theorem validation_exact (s : Bytes) :
    (isWellFormed s = true ↔ IsText s) ∧ (isWellFormed s = false ↔ ∃! i, IsFault s i) ∧
      (∀ i, firstFault? s = some i ↔ IsFault s i) ∧
        ∀ i, codePointLength? (s.drop i) = numberedLength? (s.drop i) := by
  refine ⟨isWellFormed_iff, ?_, fun i => firstFault?_eq_some_iff_isFault,
    fun i => (numberedLength?_eq _).symm⟩
  rw [isWellFormed_eq_false_iff]
  constructor
  · rintro ⟨i, hi⟩
    have hfault := firstFault?_eq_some_iff_isFault.1 hi
    exact ⟨i, hfault, fun j hj => hj.unique hfault⟩
  · rintro ⟨i, hfault, -⟩
    exact ⟨i, firstFault?_eq_some_iff_isFault.2 hfault⟩

/-- An encoded surrogate, which three bytes write behind the character `é`, is no character. -/
theorem validation_exact_surrogate :
    let s : Bytes := [0xC3, 0xA9, 0xED, 0xA0, 0x80]
    isWellFormed s = false ∧ firstFault? s = some 2 ∧ IsFault s 2 ∧ ∃! i, IsFault s i := by
  intro s
  have hfault : firstFault? s = some 2 := by
    simp [s, firstFault?, faultFrom, codePointLength?, followers, matched]
  have hfalse : isWellFormed s = false := by simp [isWellFormed, hfault]
  obtain ⟨-, hunique, hindex, -⟩ := validation_exact s
  exact ⟨hfalse, hfault, (hindex 2).1 hfault, hunique.1 hfalse⟩

end Munch.Utf8
