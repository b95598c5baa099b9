import Munch.Proofs.LimbDecimal

/-!
# Limbs are compared as the numbers that they stand for

Comparing limbs by their number and then from the top is right only for canonical limbs, as is
comparing them for equality. Every way in which a number comes into being gives the canonical ones,
so the comparisons and the ways to a machine word and back are those of the numbers.

## Main definitions

* `LimbNat.Built`: the numbers that come into being.
* `LimbNat.Numeric`: the operations on two numbers agree with their values.
-/
namespace Munch.LimbNat

variable {x y : LimbNat} {limbs : List UInt32}

/-! ## Bounds of the value -/

theorem Bounded.reverse (h : Bounded limbs) : Bounded limbs.reverse :=
  fun limb hlimb => h limb (List.mem_reverse.1 hlimb)

theorem valueOf_lt (h : Bounded limbs) : valueOf limbs < 1000000000 ^ limbs.length := by
  induction limbs with
  | nil => simp
  | cons limb limbs ih =>
    obtain ⟨hlimb, hlimbs⟩ := List.forall_mem_cons.1 h
    have hrest := ih hlimbs
    rw [valueOf_cons, List.length_cons, Nat.pow_succ]
    omega

/-- The top limb of a canonical number is not zero. -/
theorem Canonical.le_toNat {front : List UInt32} {top : UInt32} (h : x.Canonical)
    (hlimbs : x.limbs = front ++ [top]) : 1000000000 ^ front.length ≤ x.toNat := by
  have htop : top ≠ 0 := by simpa [hlimbs] using h.2
  have hpos : 0 < top.toNat := by
    apply Nat.pos_of_ne_zero
    exact fun h0 => htop (UInt32.toNat_inj.1 (by simpa using h0))
  rw [toNat, hlimbs, valueOf_append_singleton]
  have hle := Nat.le_mul_of_pos_right (1000000000 ^ front.length) hpos
  omega

/-- More limbs stand for a greater number. -/
theorem Canonical.toNat_lt_of_length_lt (hx : x.Canonical) (hy : y.Canonical)
    (h : x.limbs.length < y.limbs.length) : x.toNat < y.toNat := by
  have hne : y.limbs ≠ [] := by
    intro hnil
    simp [hnil] at h
  obtain ⟨front, top, hlimbs⟩ := (List.eq_nil_or_concat y.limbs).resolve_left hne
  rw [List.concat_eq_append] at hlimbs
  calc x.toNat < 1000000000 ^ x.limbs.length := valueOf_lt hx.1
    _ ≤ 1000000000 ^ front.length := by
      apply Nat.pow_le_pow_right (by decide)
      simpa [hlimbs, Nat.lt_succ_iff] using h
    _ ≤ y.toNat := hy.le_toNat hlimbs

/-! ## Order -/

/-- From the top the first different limbs decide, since all limbs below them together stand for
less than one of them. -/
theorem compareFromTop_eq {as bs : List UInt32} (hlength : as.length = bs.length)
    (ha : Bounded as) (hb : Bounded bs) :
    compareFromTop as bs = Ord.compare (valueOf as.reverse) (valueOf bs.reverse) := by
  induction as generalizing bs with
  | nil =>
    obtain rfl : bs = [] := by simpa using hlength.symm
    rfl
  | cons a as ih =>
    cases bs with
    | nil => simp at hlength
    | cons b bs =>
      have hlength : as.length = bs.length := by simpa using hlength
      obtain ⟨-, ha⟩ := List.forall_mem_cons.1 ha
      obtain ⟨-, hb⟩ := List.forall_mem_cons.1 hb
      have hva : valueOf as.reverse < 1000000000 ^ bs.length := by
        simpa [hlength] using valueOf_lt (Bounded.reverse ha)
      have hvb : valueOf bs.reverse < 1000000000 ^ bs.length := by
        simpa using valueOf_lt (Bounded.reverse hb)
      have hih := ih hlength ha hb
      simp only [List.reverse_cons, valueOf_append_singleton, List.length_reverse, hlength]
      generalize 1000000000 ^ bs.length = weight at hva hvb
      rw [compareFromTop]
      split_ifs with heq hlt
      · rw [heq, hih]
        grind [Nat.compare_eq_lt, Nat.compare_eq_eq, Nat.compare_eq_gt]
      · symm
        rw [Nat.compare_eq_lt]
        have hnext : weight * (a.toNat + 1) ≤ weight * b.toNat := Nat.mul_le_mul_left _ hlt
        rw [Nat.mul_succ] at hnext
        omega
      · symm
        rw [Nat.compare_eq_gt]
        have hgt : b.toNat < a.toNat := by
          have hne : a.toNat ≠ b.toNat := fun h => heq (UInt32.toNat_inj.1 h)
          have hge : b.toNat ≤ a.toNat := Nat.le_of_not_lt hlt
          omega
        have hnext : weight * (b.toNat + 1) ≤ weight * a.toNat := Nat.mul_le_mul_left _ hgt
        rw [Nat.mul_succ] at hnext
        omega

theorem compare_eq (hx : x.Canonical) (hy : y.Canonical) :
    x.compare y = Ord.compare x.toNat y.toNat := by
  unfold compare
  split_ifs with hlt hgt
  · exact (Nat.compare_eq_lt.2 (hx.toNat_lt_of_length_lt hy hlt)).symm
  · exact (Nat.compare_eq_gt.2 (hy.toNat_lt_of_length_lt hx hgt)).symm
  · have hlength : x.limbs.reverse.length = y.limbs.reverse.length := by simp; omega
    simpa [toNat] using compareFromTop_eq hlength (Bounded.reverse hx.1) (Bounded.reverse hy.1)

/-! ## One machine word -/

theorem toNat_base : base.toNat = 1000000000 := rfl

theorem limbsOfUInt64_spec (v : UInt64) :
    Bounded (limbsOfUInt64 v) ∧ (limbsOfUInt64 v).getLast? ≠ some 0 ∧
      valueOf (limbsOfUInt64 v) = v.toNat := by
  fun_induction limbsOfUInt64 v with
  | case1 => simp [Bounded]
  | case2 v hv ih =>
    obtain ⟨hbounded, hlast, hvalue⟩ := ih
    have hne : v.toNat ≠ 0 := fun h => hv (UInt64.toNat_inj.1 (by simpa using h))
    have hlow : (v % base).toUInt32.toNat = v.toNat % 1000000000 := by
      rw [UInt64.toNat_toUInt32, UInt64.toNat_mod, toNat_base]
      omega
    rw [UInt64.toNat_div, toNat_base] at hvalue
    refine ⟨List.forall_mem_cons.2 ⟨by omega, hbounded⟩, ?_, by rw [valueOf_cons]; omega⟩
    rw [List.getLast?_cons]
    intro hzero
    cases hrest : (limbsOfUInt64 (v / base)).getLast? with
    | some top => simp_all
    | none =>
      -- There is only one limb, so it has the whole value.
      rw [List.getLast?_eq_none_iff] at hrest
      rw [hrest, valueOf_nil] at hvalue
      have hlimb : (v % base).toUInt32 = 0 := by simpa [hrest] using hzero
      rw [hlimb] at hlow
      simp at hlow
      omega

theorem canonical_ofUInt64 (v : UInt64) : (ofUInt64 v).Canonical :=
  ⟨(limbsOfUInt64_spec v).1, (limbsOfUInt64_spec v).2.1⟩

@[simp] theorem toNat_ofUInt64 (v : UInt64) : (ofUInt64 v).toNat = v.toNat :=
  (limbsOfUInt64_spec v).2.2

/-- What does not fit into the word is cut off. -/
theorem toNat_toUInt64 (x : LimbNat) : x.toUInt64.toNat = x.toNat % 2 ^ 64 := by
  obtain ⟨limbs⟩ := x
  simp only [toUInt64, toNat]
  induction limbs with
  | nil => rfl
  | cons limb limbs ih =>
    simp only [List.foldr_cons, valueOf_cons, UInt64.toNat_add, UInt64.toNat_mul, ih, toNat_base,
      UInt32.toNat_toUInt64]
    omega

theorem fitsUInt64_iff (h : x.Canonical) : x.fitsUInt64 = true ↔ x.toNat < 2 ^ 64 := by
  have hmax : (0xFFFFFFFFFFFFFFFF : UInt64).toNat = 2 ^ 64 - 1 := rfl
  rw [fitsUInt64, compare_eq h (canonical_ofUInt64 _), toNat_ofUInt64, hmax, bne_iff_ne, ne_eq,
    Nat.compare_eq_gt]
  omega

theorem toUInt64_ofUInt64 (v : UInt64) : (ofUInt64 v).toUInt64 = v := by
  apply UInt64.toNat_inj.1
  have hv := v.toNat_lt
  rw [toNat_toUInt64, toNat_ofUInt64]
  omega

/-- A number of one word is also read from the text of its value. -/
theorem parse?_decimal_of_uint64 (v : UInt64) :
    parse? (Bytes.decimal v.toNat) = some (ofUInt64 v) := by
  obtain ⟨x, hx, hcanonical, hvalue⟩ :=
    parse?_of_isDigits (Bytes.isDigits_decimal v.toNat) (Bytes.decimal_ne_nil _)
  rw [Bytes.ofDecimal_decimal, ← toNat_ofUInt64] at hvalue
  rw [hx, hcanonical.eq_of_toNat_eq (canonical_ofUInt64 v) hvalue]

/-! ## Numbers that come into being -/

/-- The numbers that come into being: zero, those of one word, and those that are read from a text,
with zero for a text that is refused. -/
inductive Built : LimbNat → Prop
  | zero : Built zero
  | word (v : UInt64) : Built (ofUInt64 v)
  | text (s : Bytes) : Built (ofText s)

theorem Built.canonical (h : Built x) : x.Canonical := by
  cases h with
  | zero => exact canonical_zero
  | word v => exact canonical_ofUInt64 v
  | text s =>
    cases hparse : parse? s with
    | none => simpa [ofText_eq, hparse] using canonical_zero
    | some x => simpa [ofText_eq, hparse] using canonical_of_parse? hparse

/-- Two numbers are compared, and the first is cut to one word, as their values are. -/
structure Numeric (x y : LimbNat) : Prop where
  lt_iff : x.compare y = .lt ↔ x.toNat < y.toNat
  eq_iff : x.compare y = .eq ↔ x.toNat = y.toNat
  gt_iff : x.compare y = .gt ↔ y.toNat < x.toNat
  beq_iff : (x == y) = true ↔ x.toNat = y.toNat
  bne_iff : (x != y) = true ↔ x.toNat ≠ y.toNat
  less_iff : x < y ↔ x.toNat < y.toNat
  isZero_iff : x.isZero = true ↔ x.toNat = 0
  fits_iff : x.fitsUInt64 = true ↔ x.toNat < 2 ^ 64
  toNat_toUInt64 : x.toUInt64.toNat = x.toNat % 2 ^ 64
  toNat_toUInt64_of_fits (h : x.fitsUInt64 = true) : x.toUInt64.toNat = x.toNat

theorem Canonical.numeric (hx : x.Canonical) (hy : y.Canonical) : Numeric x y := by
  have hcompare := compare_eq hx hy
  have heq : x = y ↔ x.toNat = y.toNat := ⟨congrArg toNat, hx.eq_of_toNat_eq hy⟩
  have hzero : x = zero ↔ x.toNat = 0 := ⟨congrArg toNat, hx.eq_of_toNat_eq canonical_zero⟩
  constructor
  case lt_iff => rw [hcompare, Nat.compare_eq_lt]
  case eq_iff => rw [hcompare, Nat.compare_eq_eq]
  case gt_iff => rw [hcompare, Nat.compare_eq_gt]
  case beq_iff => rw [beq_iff_eq, heq]
  case bne_iff => rw [bne_iff_ne, ne_eq, heq]
  case less_iff => exact (iff_of_eq (congrArg (· = .lt) hcompare)).trans Nat.compare_eq_lt
  case isZero_iff =>
    rw [← hzero, isZero, List.isEmpty_iff]
    exact ⟨fun h => congrArg mk h, fun h => congrArg limbs h⟩
  case fits_iff => exact fitsUInt64_iff hx
  case toNat_toUInt64 => exact LimbNat.toNat_toUInt64 x
  case toNat_toUInt64_of_fits =>
    intro hfits
    rw [LimbNat.toNat_toUInt64, Nat.mod_eq_of_lt ((fitsUInt64_iff hx).1 hfits)]

/-- However two numbers came into being, comparing them is comparing their values, and so is the
way to one word. The way from a word gives the canonical number of its value, which is the one that
is read from the text of the value, and the way back gives the word. -/
theorem built_numeric (hx : Built x) (hy : Built y) : Numeric x y ∧ ∀ v : UInt64,
    (ofUInt64 v).Canonical ∧ (ofUInt64 v).toNat = v.toNat ∧
      parse? (Bytes.decimal v.toNat) = some (ofUInt64 v) ∧ (ofUInt64 v).toUInt64 = v :=
  ⟨hx.canonical.numeric hy.canonical, fun v =>
    ⟨canonical_ofUInt64 v, toNat_ofUInt64 v, parse?_decimal_of_uint64 v, toUInt64_ofUInt64 v⟩⟩

/-- The first number that does not fit into a word, and the last that does. -/
theorem built_numeric_boundary :
    let x := ofText (Bytes.ascii "18446744073709551616")
    let y := ofUInt64 0xFFFFFFFFFFFFFFFF
    (Built x ∧ Built y) ∧ Numeric x y ∧ x.compare y = .gt ∧ x.fitsUInt64 = false ∧
      x.toUInt64 = 0 ∧ (ofUInt64 0xFFFFFFFFFFFFFFFF).toUInt64 = 0xFFFFFFFFFFFFFFFF := by
  intro x y
  have hx : Built x := .text _
  have hy : Built y := .word _
  obtain ⟨hnumeric, hword⟩ := built_numeric hx hy
  have hvalue : x.toNat = 2 ^ 64 := by decide +kernel
  have hmax : y.toNat = 2 ^ 64 - 1 := (hword _).2.1
  refine ⟨⟨hx, hy⟩, hnumeric, hnumeric.gt_iff.2 (by omega), ?_, ?_, (hword _).2.2.2⟩
  · rw [← Bool.not_eq_true, hnumeric.fits_iff, hvalue]
    omega
  · apply UInt64.toNat_inj.1
    rw [hnumeric.toNat_toUInt64, hvalue]
    rfl

end Munch.LimbNat
