import Munch.Proofs.LimbDecimal

/-!
# Reading and writing numbers in limbs is exact

The arithmetic on limbs is arithmetic on words, which would go wrong without notice. It never does:
whatever text is read, every product, sum and carry on the way is a number that its word holds, also
if the text is refused in the end. So a text is read if and only if it is made of digits, what is
read is the number that the text writes, and this number is written as the text without its leading
zeros.

## Main definitions

* `Bytes.withoutLeadingZeros`: the shortest text of the same number.
* `LimbNat.ChunkFits`, `LimbNat.MulAddFits`: the words of one chunk and of one multiplication hold
  the exact values.
* `LimbNat.ReadFits`: so do the words of a whole reading.
* `LimbNat.PaddingFits`: no limb is longer than the nine digits it is padded to.
-/
namespace Munch

/-! ## Leading zeros -/

namespace Bytes

/-- The text without its leading zeros, of which one is left if there is nothing else. -/
def withoutLeadingZeros (s : Bytes) : Bytes :=
  if s.all (· == 0x30) then [0x30] else s.dropWhile (· == 0x30)

theorem decimal_of_lt_ten {n : Nat} (h : n < 10) : decimal n = [Byte.digit n] := by
  rw [decimal, if_pos h]

theorem digit_digitValue {b : Byte} (h : b.isDigit = true) : Byte.digit b.digitValue = b := by
  revert h
  refine Byte.of_forall_fin (p := fun b => b.isDigit = true → Byte.digit b.digitValue = b) ?_
    b.toNat_lt
  decide +kernel

/-- A text of digits without a leading zero is the one that is written for its value. -/
theorem decimal_ofDecimal_of_head_ne {s : Bytes} (h : IsDigits s) (hne : s ≠ [])
    (hhead : s.head? ≠ some 0x30) : decimal (ofDecimal s) = s := by
  induction s using List.reverseRecOn with
  | nil => exact absurd rfl hne
  | append_singleton s b ih =>
    obtain ⟨hs, hb⟩ := isDigits_append.1 h
    replace hb := hb b (by simp)
    have hdigit := digitValue_lt hb
    rw [ofDecimal_append_digit]
    by_cases hnil : s = []
    · subst hnil
      have hsmall : 10 * ofDecimal [] + b.digitValue = b.digitValue := by simp [ofDecimal]
      simp [hsmall, decimal_of_lt_ten hdigit, digit_digitValue hb]
    · have hfront : s.head? ≠ some 0x30 := by
        rwa [List.head?_append_of_ne_nil _ hnil] at hhead
      have hdecimal := ih hs hnil hfront
      have hpos : ofDecimal s ≠ 0 := by
        intro hzero
        rw [hzero, decimal_of_lt_ten (by decide)] at hdecimal
        exact hfront (hdecimal ▸ rfl)
      have hdiv : (10 * ofDecimal s + b.digitValue) / 10 = ofDecimal s := by omega
      have hmod : (10 * ofDecimal s + b.digitValue) % 10 = b.digitValue := by omega
      rw [decimal, if_neg (by omega), hdiv, hmod, hdecimal, digit_digitValue hb]

/-- The value of a text of digits is written without the leading zeros. -/
theorem decimal_ofDecimal {s : Bytes} (h : IsDigits s) (hne : s ≠ []) :
    decimal (ofDecimal s) = withoutLeadingZeros s := by
  induction s with
  | nil => exact absurd rfl hne
  | cons b s ih =>
    by_cases hb : b = 0x30
    · subst hb
      have hvalue : ofDecimal (0x30 :: s) = ofDecimal s := rfl
      by_cases hnil : s = []
      · subst hnil
        exact decimal_of_lt_ten (by decide)
      · rw [hvalue, ih (List.forall_mem_cons.1 h).2 hnil]
        simp [withoutLeadingZeros]
    · rw [decimal_ofDecimal_of_head_ne h hne (by simpa using hb)]
      simp [withoutLeadingZeros, hb]

end Bytes

namespace LimbNat

open Bytes

/-- A canonical number is written as its value is. -/
theorem Canonical.decimal_eq {x : LimbNat} (h : x.Canonical) :
    x.decimal = Bytes.decimal x.toNat := by
  obtain ⟨hdigits, hne, hvalue⟩ := decimal_spec h.1
  rw [← hvalue]
  by_cases hzero : x.limbs = []
  · have htext : x.decimal = [0x30] := by simp [decimal, hzero]
    rw [htext]
    exact (decimal_of_lt_ten (n := 0) (by decide)).symm
  · obtain ⟨front, top, hlimbs⟩ := List.eq_nil_or_concat x.limbs |>.resolve_left hzero
    have htop : top ≠ 0 := by simpa [hlimbs] using h.2
    have hpos : top.toNat ≠ 0 := fun h0 => htop (UInt32.toNat_inj.1 (by simpa using h0))
    refine (decimal_ofDecimal_of_head_ne hdigits hne ?_).symm
    rw [decimal, hlimbs, List.concat_eq_append, List.reverse_concat]
    dsimp only
    rw [List.head?_append_of_ne_nil _ (decimal_ne_nil _)]
    exact head_decimal hpos

/-! ## Words that hold the exact values -/

/-- Nothing wraps while a run of digits is read: not the difference between a digit and the zero
digit, and neither the value nor the scale when one more digit makes it ten times as large. -/
def ChunkFits (s : Bytes) : Prop :=
  ∀ front b, front ++ [b] <+: s → b.isDigit = true → ∀ value scale,
    chunk? front = some (value, scale) →
      0x30 ≤ b.toNat ∧ value.toNat * 10 + (b.toNat - 0x30) < 2 ^ 32 ∧ scale.toNat * 10 < 2 ^ 32

/-- No product with the carry added to it leaves its word, no limb is cut when it is stored, and
neither is the last carry. -/
def MulAddFits (scale : UInt32) : List UInt32 → UInt64 → Prop
  | [], carry => carry.toNat < 2 ^ 32
  | limb :: limbs, carry =>
    let x := limb.toUInt64 * scale.toUInt64 + carry
    limb.toNat * scale.toNat + carry.toNat < 2 ^ 64 ∧ (x % base).toNat < 2 ^ 32 ∧
      MulAddFits scale limbs (x / base)

/-- From some limbs on a text is read, chunk by chunk to its end or to one that is refused, in
words that hold the exact values. -/
inductive ReadFits : List UInt32 → Bytes → Prop
  | done (limbs : List UInt32) : ReadFits limbs []
  | chunk {limbs : List UInt32} {s : Bytes} (hs : s ≠ []) (hchunk : ChunkFits (s.take 9))
      (hmul : ∀ value scale, chunk? (s.take 9) = some (value, scale) →
        MulAddFits scale limbs value.toUInt64)
      (hrest : ∀ value scale, chunk? (s.take 9) = some (value, scale) →
        ReadFits (mulAdd scale limbs value.toUInt64) (s.drop 9)) : ReadFits limbs s

/-- No limb has more digits than it is padded to. -/
def PaddingFits (x : LimbNat) : Prop :=
  ∀ limb ∈ x.limbs, (Bytes.decimal limb.toNat).length ≤ 9

theorem chunkFits {s : Bytes} (hlength : s.length ≤ 9) : ChunkFits s := by
  intro front b hprefix hdigit value scale hchunk
  have hle := hprefix.length_le
  simp only [List.length_append, List.length_singleton] at hle
  obtain ⟨-, hvalue, hscale⟩ := chunk?_spec hchunk (by omega)
  have hpow : 10 ^ front.length ≤ 10 ^ 8 := Nat.pow_le_pow_right (by decide) (by omega)
  have hb := toNat_of_isDigit hdigit
  refine ⟨hb.1, ?_, ?_⟩ <;> omega

theorem mulAddFits {scale : UInt32} (hscale : scale.toNat ≤ 1000000000) {limbs : List UInt32}
    (h : Bounded limbs) {carry : UInt64} (hcarry : carry.toNat < 1000000000) :
    MulAddFits scale limbs carry := by
  induction limbs generalizing carry with
  | nil =>
    rw [MulAddFits]
    omega
  | cons limb limbs ih =>
    obtain ⟨hlimb, hlimbs⟩ := List.forall_mem_cons.1 h
    obtain ⟨hvalue, hnext⟩ := product_spec hscale hlimb hcarry
    refine ⟨?_, ?_, ih hlimbs hnext⟩
    · rw [← hvalue]
      exact UInt64.toNat_lt _
    · rw [UInt64.toNat_mod, show base.toNat = 1000000000 from rfl]
      omega

/-- What one chunk keeps is that the limbs are below the base, so every chunk is read exactly. -/
theorem readFits {limbs : List UInt32} (h : Bounded limbs) (s : Bytes) : ReadFits limbs s := by
  fun_induction appendDigits limbs s with
  | case1 limbs => exact .done limbs
  | case2 limbs s hne hrefused =>
    refine .chunk hne (chunkFits (List.length_take_le 9 s)) ?_ ?_ <;> intro value scale hchunk <;>
    · rw [hrefused] at hchunk
      cases hchunk
  | case3 limbs s hne value scale hchunk ih =>
    have hlength := List.length_take_le 9 s
    obtain ⟨hcarry, hscale⟩ := chunk?_bounds hchunk hlength
    refine .chunk hne (chunkFits hlength) ?_ ?_ <;> intro value' scale' hchunk' <;>
      obtain ⟨rfl, rfl⟩ := Prod.mk.inj (Option.some.inj (hchunk.symm.trans hchunk'))
    · exact mulAddFits hscale h hcarry
    · exact ih (mulAdd_spec hscale h hcarry).1

theorem Canonical.paddingFits {x : LimbNat} (h : x.Canonical) : x.PaddingFits :=
  fun limb hlimb => length_decimal_le (by decide) (h.1 limb hlimb)

/-! ## Exactness -/

/-- Reading and writing are exact and inverse to each other. Whatever the text, no word overflows
while it is read. A text of digits is read into the canonical limbs of its value, which is written
without leading zeros; any other text is refused and leaves zero. A canonical number is written
without cutting a limb and read back as it was. -/
theorem parse?_exact (s : Bytes) :
    ReadFits [] s ∧
    (s ≠ [] ∧ IsDigits s → ∃ x, parse? s = some x ∧ ofText s = x ∧ x.Canonical ∧
      x.toNat = ofDecimal s ∧ x.decimal = withoutLeadingZeros s) ∧
    (¬ (s ≠ [] ∧ IsDigits s) → parse? s = none ∧ ofText s = zero) ∧
    ∀ x : LimbNat, x.Canonical → x.PaddingFits ∧ parse? x.decimal = some x := by
  refine ⟨readFits (by simp [Bounded]) s, ?_, ?_, fun x hx => ⟨hx.paddingFits, parse?_decimal hx⟩⟩
  · rintro ⟨hne, hdigits⟩
    obtain ⟨x, hparse, hcanonical, hvalue⟩ := parse?_of_isDigits hdigits hne
    refine ⟨x, hparse, by simp [ofText_eq, hparse], hcanonical, hvalue, ?_⟩
    rw [hcanonical.decimal_eq, hvalue, decimal_ofDecimal hdigits hne]
  · intro hnot
    have hparse : parse? s = none := by
      by_contra hsome
      obtain ⟨x, hx⟩ := Option.ne_none_iff_exists'.1 hsome
      exact hnot (isDigits_of_parse? hx).symm
    exact ⟨hparse, by simp [ofText_eq, hparse]⟩

/-- Leading zeros fill the first chunk, the last one is short, and the middle limb is zero. -/
theorem parse?_exact_zeros :
    let s := Bytes.ascii "00000000001000000000999999999"
    let x : LimbNat := ⟨[999999999, 0, 1]⟩
    (s ≠ [] ∧ IsDigits s) ∧ ReadFits [] s ∧
      (∃ y, parse? s = some y ∧ ofText s = y ∧ y.Canonical ∧ y.toNat = 1000000000999999999 ∧
        y.decimal = Bytes.ascii "1000000000999999999") ∧
      x.Canonical ∧ x.PaddingFits ∧ parse? x.decimal = some x := by
  intro s x
  have hs : s ≠ [] ∧ IsDigits s := ⟨by decide, List.all_eq_true.1 (by decide)⟩
  have hx : x.Canonical := ⟨by simp [x], by decide⟩
  obtain ⟨hfits, hread, -, hback⟩ := parse?_exact s
  exact ⟨hs, hfits, hread hs, hx, hback x hx⟩

end LimbNat
end Munch
