import Mathlib.Data.List.Basic
import Mathlib.Data.List.Induction
import Mathlib.Tactic.Ring
import Munch.LimbNat

/-!
# Reading and writing numbers in limbs

A text of digits is read into the one canonical list of limbs for its value, and the text
written for a canonical number is read back as this number. On the way no machine word
overflows: every limb stays below a thousand million, so a product of a limb with a scale and
the carry added to it fit into 64 bits.
-/
namespace Munch

/-! ## Decimal texts -/

namespace Bytes

/-- The text is made of digits. -/
def IsDigits (s : Bytes) : Prop := ∀ b ∈ s, b.isDigit = true

theorem isDigits_decimal (n : Nat) : IsDigits (decimal n) := fun _ => isDigit_of_mem_decimal

theorem isDigits_append {s t : Bytes} : IsDigits (s ++ t) ↔ IsDigits s ∧ IsDigits t :=
  List.forall_mem_append

theorem toNat_of_isDigit {b : Byte} (h : b.isDigit = true) : 0x30 ≤ b.toNat ∧ b.toNat ≤ 0x39 := by
  simpa [Byte.isDigit, UInt8.le_iff_toNat_le] using h

theorem digitValue_lt {b : Byte} (h : b.isDigit = true) : b.digitValue < 10 := by
  have hb := toNat_of_isDigit h
  rw [Byte.digitValue]
  omega

theorem ofDecimal_append (s t : Bytes) :
    ofDecimal (s ++ t) = ofDecimal s * 10 ^ t.length + ofDecimal t := by
  induction t using List.reverseRecOn with
  | nil => simp [ofDecimal]
  | append_singleton t b ih =>
    rw [← List.append_assoc, ofDecimal_append_digit, ofDecimal_append_digit, ih,
      List.length_append, List.length_singleton]
    ring

theorem ofDecimal_lt {s : Bytes} (h : IsDigits s) : ofDecimal s < 10 ^ s.length := by
  induction s using List.reverseRecOn with
  | nil => simp [ofDecimal]
  | append_singleton s b ih =>
    obtain ⟨hs, hb⟩ := isDigits_append.1 h
    have hlt := ih hs
    have hdigit := digitValue_lt (hb b (by simp))
    rw [ofDecimal_append_digit, List.length_append, List.length_singleton, Nat.pow_succ]
    omega

theorem ofDecimal_replicate_zero (n : Nat) : ofDecimal (List.replicate n 0x30) = 0 := by
  induction n with
  | zero => rfl
  | succ n ih => rw [List.replicate_succ', ofDecimal_append_digit, ih]; rfl

theorem length_decimal_le {n k : Nat} (hk : 0 < k) (h : n < 10 ^ k) : (decimal n).length ≤ k := by
  induction k, hk using Nat.le_induction generalizing n with
  | base => rw [decimal, if_pos (by omega)]; simp
  | succ k _ ih =>
    rw [decimal]
    split
    · simp
    · have hdiv : n / 10 < 10 ^ k := by rw [Nat.pow_succ] at h; omega
      have hle := ih hdiv
      simp only [List.length_append, List.length_singleton]
      omega

theorem head_decimal {n : Nat} (hn : n ≠ 0) : (decimal n).head? ≠ some 0x30 := by
  fun_induction decimal n with
  | case1 n h =>
    have hall : ∀ d : Fin 10, d.val ≠ 0 → Byte.digit d.val ≠ 0x30 := by decide
    simpa using hall ⟨n, h⟩ hn
  | case2 n h ih =>
    rw [List.head?_append_of_ne_nil _ (decimal_ne_nil _)]
    exact ih (by omega)

end Bytes

namespace LimbNat

open Bytes

/-- Every limb is below the base. -/
def Bounded (limbs : List UInt32) : Prop := ∀ limb ∈ limbs, limb.toNat < 1000000000

/-! ## Reading -/

theorem isDigits_of_chunk? {s : Bytes} {r : UInt32 × UInt32} (h : chunk? s = some r) :
    IsDigits s := by
  induction s using List.reverseRecOn generalizing r with
  | nil => simp [IsDigits]
  | append_singleton s b ih =>
    rw [chunk?, List.foldlM_append] at h
    obtain ⟨⟨value, scale⟩, hs, hb⟩ := Option.bind_eq_some_iff.1 h
    refine isDigits_append.2 ⟨ih hs, fun c hc => ?_⟩
    obtain rfl := List.mem_singleton.1 hc
    by_contra hdigit
    simp [hdigit] at hb

/-- At most nine digits are read without overflow. -/
theorem chunk?_of_isDigits {s : Bytes} (h : IsDigits s) (hlength : s.length ≤ 9) :
    ∃ value scale, chunk? s = some (value, scale) ∧ value.toNat = ofDecimal s ∧
      scale.toNat = 10 ^ s.length := by
  induction s using List.reverseRecOn with
  | nil => exact ⟨0, 1, rfl, rfl, rfl⟩
  | append_singleton s b ih =>
    obtain ⟨hs, hb⟩ := isDigits_append.1 h
    replace hb := hb b (by simp)
    rw [List.length_append, List.length_singleton] at hlength
    obtain ⟨value, scale, hchunk, hvalue, hscale⟩ := ih hs (by omega)
    have hlt := ofDecimal_lt hs
    have hpow : 10 ^ s.length ≤ 10 ^ 8 := Nat.pow_le_pow_right (by decide) (by omega)
    have hdigit := digitValue_lt hb
    have hsub : (b - 0x30).toNat = b.digitValue := by
      have hle : (0x30 : Byte) ≤ b := UInt8.le_iff_toNat_le.2 (toNat_of_isDigit hb).1
      rw [UInt8.toNat_sub_of_le _ _ hle]
      rfl
    refine ⟨value * 10 + (b - 0x30).toUInt32, scale * 10, ?_, ?_, ?_⟩
    · rw [chunk?] at hchunk
      rw [chunk?, List.foldlM_append, hchunk]
      simp [hb]
    · rw [ofDecimal_append_digit, UInt32.toNat_add, UInt32.toNat_mul, UInt8.toNat_toUInt32, hsub,
        hvalue, show (10 : UInt32).toNat = 10 from rfl]
      omega
    · rw [List.length_append, List.length_singleton, UInt32.toNat_mul, hscale, Nat.pow_succ,
        show (10 : UInt32).toNat = 10 from rfl]
      omega

/-- A run of at most nine digits that is read has its exact value and scale. -/
theorem chunk?_spec {s : Bytes} {value scale : UInt32} (h : chunk? s = some (value, scale))
    (hlength : s.length ≤ 9) : value.toNat = ofDecimal s ∧ value.toNat < 10 ^ s.length ∧
      scale.toNat = 10 ^ s.length := by
  have hdigits := isDigits_of_chunk? h
  obtain ⟨value', scale', h', hvalue, hscale⟩ := chunk?_of_isDigits hdigits hlength
  cases h.symm.trans h'
  exact ⟨hvalue, hvalue ▸ ofDecimal_lt hdigits, hscale⟩

/-- The value and the scale of a chunk of nine digits or less are in the range of `mulAdd_spec`. -/
theorem chunk?_bounds {s : Bytes} {value scale : UInt32} (h : chunk? s = some (value, scale))
    (hlength : s.length ≤ 9) :
    value.toUInt64.toNat < 1000000000 ∧ scale.toNat ≤ 1000000000 := by
  obtain ⟨-, hvalue, hscale⟩ := chunk?_spec h hlength
  have hpow : 10 ^ s.length ≤ 10 ^ 9 := Nat.pow_le_pow_right (by decide) hlength
  rw [UInt32.toNat_toUInt64]
  omega

/-- A product of a limb with the scale and the carry added to it fit into one word, and less than
the base is carried on. -/
theorem product_spec {scale limb : UInt32} {carry : UInt64} (hscale : scale.toNat ≤ 1000000000)
    (hlimb : limb.toNat < 1000000000) (hcarry : carry.toNat < 1000000000) :
    (limb.toUInt64 * scale.toUInt64 + carry).toNat = limb.toNat * scale.toNat + carry.toNat ∧
      ((limb.toUInt64 * scale.toUInt64 + carry) / base).toNat < 1000000000 := by
  have hprod : limb.toNat * scale.toNat ≤ 999999999 * 1000000000 :=
    Nat.mul_le_mul (by omega) hscale
  have hvalue : (limb.toUInt64 * scale.toUInt64 + carry).toNat =
      limb.toNat * scale.toNat + carry.toNat := by
    rw [UInt64.toNat_add, UInt64.toNat_mul, UInt32.toNat_toUInt64, UInt32.toNat_toUInt64]
    omega
  refine ⟨hvalue, ?_⟩
  rw [UInt64.toNat_div, hvalue, show base.toNat = 1000000000 from rfl]
  omega

/-- Multiplying by at most the base and adding less than the base carries less than the base from
limb to limb. -/
theorem mulAdd_spec {scale : UInt32} (hscale : scale.toNat ≤ 1000000000) {limbs : List UInt32}
    (h : Bounded limbs) {carry : UInt64} (hcarry : carry.toNat < 1000000000) :
    Bounded (mulAdd scale limbs carry) ∧
      valueOf (mulAdd scale limbs carry) = valueOf limbs * scale.toNat + carry.toNat := by
  induction limbs generalizing carry with
  | nil =>
    rw [mulAdd]
    split
    · simp_all [Bounded]
    · have htrunc : carry.toUInt32.toNat = carry.toNat := by
        rw [UInt64.toNat_toUInt32]
        omega
      simp [Bounded, htrunc, hcarry]
  | cons limb limbs ih =>
    obtain ⟨hlimb, hlimbs⟩ := List.forall_mem_cons.1 h
    obtain ⟨hvalue, hnext⟩ := product_spec hscale hlimb hcarry
    rw [mulAdd]
    generalize limb.toUInt64 * scale.toUInt64 + carry = x at hvalue hnext
    have hbase : base.toNat = 1000000000 := rfl
    have hdiv : (x / base).toNat = x.toNat / 1000000000 := by rw [UInt64.toNat_div, hbase]
    have hmod : (x % base).toUInt32.toNat = x.toNat % 1000000000 := by
      rw [UInt64.toNat_toUInt32, UInt64.toNat_mod, hbase]
      omega
    obtain ⟨hbounded, hrest⟩ := ih hlimbs hnext
    refine ⟨List.forall_mem_cons.2 ⟨by omega, hbounded⟩, ?_⟩
    rw [valueOf_cons, valueOf_cons, hrest, hmod, hdiv]
    have hsplit := Nat.mod_add_div x.toNat 1000000000
    calc x.toNat % 1000000000 +
          1000000000 * (valueOf limbs * scale.toNat + x.toNat / 1000000000)
        = (x.toNat % 1000000000 + 1000000000 * (x.toNat / 1000000000)) +
          1000000000 * (valueOf limbs * scale.toNat) := by ring
      _ = (limb.toNat + 1000000000 * valueOf limbs) * scale.toNat + carry.toNat := by
        rw [hsplit, hvalue]
        ring

theorem appendDigits_of_isDigits {s : Bytes} (hs : IsDigits s) {limbs : List UInt32}
    (h : Bounded limbs) : ∃ r, appendDigits limbs s = (r, true) ∧ Bounded r ∧
      valueOf r = valueOf limbs * 10 ^ s.length + ofDecimal s := by
  fun_induction appendDigits limbs s with
  | case1 limbs => exact ⟨limbs, rfl, h, by simp [ofDecimal]⟩
  | case2 limbs s hne hchunk =>
    rw [← List.take_append_drop 9 s] at hs
    obtain ⟨value, scale, hchunk', -⟩ :=
      chunk?_of_isDigits (isDigits_append.1 hs).1 (List.length_take_le 9 s)
    rw [hchunk] at hchunk'
    cases hchunk'
  | case3 limbs s hne value scale hchunk ih =>
    rw [← List.take_append_drop 9 s] at hs
    obtain ⟨-, hdrop⟩ := isDigits_append.1 hs
    obtain ⟨hvalue, -, hscale⟩ := chunk?_spec hchunk (List.length_take_le 9 s)
    obtain ⟨hcarry, hscale'⟩ := chunk?_bounds hchunk (List.length_take_le 9 s)
    obtain ⟨hbounded, hmul⟩ := mulAdd_spec hscale' h hcarry
    obtain ⟨r, hr, hrbounded, hrvalue⟩ := ih hdrop hbounded
    refine ⟨r, hr, hrbounded, ?_⟩
    have hlength : s.length = (s.take 9).length + (s.drop 9).length := by
      rw [← List.length_append, List.take_append_drop]
    have hdecimal := ofDecimal_append (s.take 9) (s.drop 9)
    rw [List.take_append_drop] at hdecimal
    rw [hrvalue, hmul, UInt32.toNat_toUInt64, hvalue, hscale, hdecimal, hlength, Nat.pow_add]
    ring

theorem isDigits_of_appendDigits (limbs : List UInt32) (s : Bytes)
    (h : (appendDigits limbs s).2 = true) : IsDigits s := by
  fun_induction appendDigits limbs s with
  | case1 => simp [IsDigits]
  | case2 => cases h
  | case3 limbs s hne value scale hchunk ih =>
    rw [← List.take_append_drop 9 s]
    exact isDigits_append.2 ⟨isDigits_of_chunk? hchunk, ih h⟩

/-! ## Normal forms -/

theorem valueOf_append_singleton (limbs : List UInt32) (top : UInt32) :
    valueOf (limbs ++ [top]) = valueOf limbs + 1000000000 ^ limbs.length * top.toNat := by
  induction limbs with
  | nil => simp
  | cons limb limbs ih =>
    rw [List.cons_append, valueOf_cons, ih, valueOf_cons, List.length_cons, Nat.pow_succ]
    ring

/-- Zeros at the top do not count, and none are left. -/
theorem normalize_spec (limbs : List UInt32) :
    valueOf (normalize limbs) = valueOf limbs ∧ (normalize limbs).getLast? ≠ some 0 ∧
      ∀ limb ∈ normalize limbs, limb ∈ limbs := by
  induction limbs using List.reverseRecOn with
  | nil => simp [normalize]
  | append_singleton limbs top ih =>
    by_cases htop : top = 0
    · have hdrop : normalize (limbs ++ [top]) = normalize limbs := by simp [normalize, htop]
      obtain ⟨hvalue, hlast, hmem⟩ := ih
      rw [hdrop, valueOf_append_singleton, htop]
      refine ⟨by simpa using hvalue, hlast, fun limb hlimb => ?_⟩
      exact List.mem_append_left _ (hmem limb hlimb)
    · have hkeep : normalize (limbs ++ [top]) = limbs ++ [top] := by simp [normalize, htop]
      rw [hkeep]
      exact ⟨rfl, by simpa using htop, fun limb hlimb => hlimb⟩

theorem Canonical.tail {limb : UInt32} {limbs : List UInt32}
    (h : Canonical ⟨limb :: limbs⟩) : Canonical ⟨limbs⟩ := by
  obtain ⟨hbounded, hlast⟩ := h
  refine ⟨fun l hl => hbounded l (List.mem_cons_of_mem _ hl), ?_⟩
  cases limbs with
  | nil => simp
  | cons l limbs => simpa [List.getLast?_cons_cons] using hlast

theorem Canonical.toNat_pos {limb : UInt32} {limbs : List UInt32}
    (h : Canonical ⟨limb :: limbs⟩) : 0 < valueOf (limb :: limbs) := by
  induction limbs generalizing limb with
  | nil =>
    have hlimb : limb ≠ 0 := by simpa using h.2
    have hne : limb.toNat ≠ 0 := fun h0 => hlimb (UInt32.toNat_inj.1 (by simpa using h0))
    rw [valueOf_cons]
    omega
  | cons l limbs ih =>
    have hpos := ih h.tail
    rw [valueOf_cons]
    omega

/-- A value has one canonical form. -/
theorem Canonical.eq_of_toNat_eq {x y : LimbNat} (hx : x.Canonical) (hy : y.Canonical)
    (h : x.toNat = y.toNat) : x = y := by
  obtain ⟨xs⟩ := x
  obtain ⟨ys⟩ := y
  replace h : valueOf xs = valueOf ys := h
  induction xs generalizing ys with
  | nil =>
    cases ys with
    | nil => rfl
    | cons limb ys =>
      have hpos := hy.toNat_pos
      rw [← h, valueOf_nil] at hpos
      omega
  | cons limb xs ih =>
    cases ys with
    | nil =>
      have hpos := hx.toNat_pos
      rw [h, valueOf_nil] at hpos
      omega
    | cons limb' ys =>
      have hlimb := hx.1 limb (by simp)
      have hlimb' := hy.1 limb' (by simp)
      rw [valueOf_cons, valueOf_cons] at h
      have hhead : limb = limb' := UInt32.toNat_inj.1 (by omega)
      have htail := ih hx.tail ys hy.tail (by omega)
      rw [hhead, LimbNat.mk.inj htail]

/-! ## Round trips -/

/-- A text of digits is read into the canonical form of its value. -/
theorem parse?_of_isDigits {s : Bytes} (hs : IsDigits s) (hne : s ≠ []) :
    ∃ x, parse? s = some x ∧ x.Canonical ∧ x.toNat = ofDecimal s := by
  have hnil : Bounded [] := by simp [Bounded]
  obtain ⟨r, hr, hbounded, hvalue⟩ := appendDigits_of_isDigits hs hnil
  obtain ⟨hnormal, hlast, hmem⟩ := normalize_spec r
  have hparse : parse s = (⟨normalize r⟩, true) := by rw [parse, if_neg hne, hr]
  refine ⟨⟨normalize r⟩, by rw [parse?, hparse]; rfl, ⟨?_, hlast⟩, ?_⟩
  · exact fun limb hlimb => hbounded limb (hmem limb hlimb)
  · rw [toNat, hnormal, hvalue]
    simp

theorem isDigits_of_parse? {s : Bytes} {x : LimbNat} (h : parse? s = some x) :
    IsDigits s ∧ s ≠ [] := by
  have hread : (parse s).2 = true := (Option.ite_none_right_eq_some.1 h).1
  rw [parse] at hread
  split at hread
  · cases hread
  · refine ⟨isDigits_of_appendDigits [] s ?_, ‹_›⟩
    split at hread
    · simp [*]
    · cases hread

theorem canonical_of_parse? {s : Bytes} {x : LimbNat} (h : parse? s = some x) :
    x.Canonical := by
  obtain ⟨hs, hne⟩ := isDigits_of_parse? h
  obtain ⟨y, hy, hcanonical, -⟩ := parse?_of_isDigits hs hne
  obtain rfl := Option.some.inj (h.symm.trans hy)
  exact hcanonical

/-- A limb below the top is written with nine digits. -/
theorem padded_spec {limb : UInt32} (h : limb.toNat < 1000000000) :
    IsDigits (padded limb) ∧ (padded limb).length = 9 ∧ ofDecimal (padded limb) = limb.toNat := by
  have hle := length_decimal_le (k := 9) (by decide) h
  refine ⟨isDigits_append.2 ⟨fun b hb => ?_, isDigits_decimal _⟩, ?_, ?_⟩
  · rw [List.eq_of_mem_replicate hb]
    rfl
  · rw [padded, List.length_append, List.length_replicate]
    omega
  · rw [padded, ofDecimal_append, ofDecimal_replicate_zero, ofDecimal_decimal]
    omega

/-- Limbs written behind a text, the most significant first, continue its value. -/
theorem flatMap_padded_spec {limbs : List UInt32} (h : Bounded limbs) {s : Bytes}
    (hs : IsDigits s) : IsDigits (s ++ limbs.flatMap padded) ∧
      ofDecimal (s ++ limbs.flatMap padded) =
        ofDecimal s * 1000000000 ^ limbs.length + valueOf limbs.reverse := by
  induction limbs generalizing s with
  | nil => simpa using hs
  | cons limb limbs ih =>
    obtain ⟨hlimb, hlimbs⟩ := List.forall_mem_cons.1 h
    obtain ⟨hdigits, hlength, hvalue⟩ := padded_spec hlimb
    obtain ⟨hall, hdecimal⟩ := ih hlimbs (isDigits_append.2 ⟨hs, hdigits⟩)
    rw [List.flatMap_cons, ← List.append_assoc]
    refine ⟨hall, ?_⟩
    rw [hdecimal, ofDecimal_append, hlength, hvalue, List.reverse_cons, valueOf_append_singleton,
      List.length_reverse, List.length_cons, Nat.pow_succ]
    ring

theorem decimal_spec {x : LimbNat} (h : Bounded x.limbs) :
    IsDigits x.decimal ∧ x.decimal ≠ [] ∧ ofDecimal x.decimal = x.toNat := by
  rw [decimal, toNat]
  split
  · rename_i hnil
    rw [List.reverse_eq_nil_iff.1 hnil]
    exact ⟨by simp [IsDigits, Byte.isDigit], by simp, rfl⟩
  · rename_i top rest htop
    have hlimbs : x.limbs = rest.reverse ++ [top] := by
      rw [← List.reverse_cons, ← htop, List.reverse_reverse]
    have hrest : Bounded rest := fun limb hlimb => h limb (by rw [hlimbs]; simp [hlimb])
    obtain ⟨hdigits, hvalue⟩ := flatMap_padded_spec hrest (isDigits_decimal top.toNat)
    refine ⟨hdigits, by simp [decimal_ne_nil], ?_⟩
    rw [hvalue, hlimbs, valueOf_append_singleton, ofDecimal_decimal, List.length_reverse]
    ring

/-- A canonical number is read back from its decimal text. -/
theorem parse?_decimal {x : LimbNat} (h : x.Canonical) : parse? x.decimal = some x := by
  obtain ⟨hdigits, hne, hvalue⟩ := decimal_spec h.1
  obtain ⟨y, hy, hcanonical, hyvalue⟩ := parse?_of_isDigits hdigits hne
  rw [hy, hcanonical.eq_of_toNat_eq h (hyvalue.trans hvalue)]

end LimbNat
end Munch
