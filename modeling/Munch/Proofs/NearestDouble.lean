import Mathlib.Logic.ExistsUnique
import Munch.Proofs.DoubleGrammar
import Munch.Proofs.Nearest

/-!
# Doubles are read as the nearest number

Every text in the language of doubles writes one exact value, which is not negative. It is read as
the number nearest to this value, and it is refused exactly if the value lies at or beyond the
halfway point between the greatest finite number and the next on the scale. Small values are never
refused.

## Main definitions

* `Literal.Double.Parts.value`: the value that the parts of a literal write.
* `Literal.Double.Denotes`: a text writes a value.
-/
namespace Munch.Literal.Double

open Binary64 (IsNearest RoundsTo decimalValue infinity ofMagnitude)
open Bytes (ofDecimal)

variable {s s' : Bytes} {v v' : ℚ} {d d' : Binary64}

/-! ## What a text writes -/

/-- The whole digits and the digits behind the point, times a power of ten. -/
def Parts.value (p : Parts) : ℚ :=
  (ofDecimal p.whole + ofDecimal p.fraction / 10 ^ p.fraction.length) *
    10 ^ (if p.isSmall then -(ofDecimal p.power : Int) else ofDecimal p.power)

/-- The text is a double that writes the value. -/
def Denotes (s : Bytes) (v : ℚ) : Prop := ∃ p : Parts, p.Writes s ∧ p.value = v

theorem Parts.value_eq (p : Parts) : p.value = decimalValue p.digits p.exponent := by
  have hten : (10 : ℚ) ^ p.fraction.length ≠ 0 := pow_ne_zero _ (by norm_num)
  rw [Parts.value, decimalValue, Parts.digits, Parts.exponent, Bytes.ofDecimal_append,
    zpow_sub₀ (by norm_num), zpow_natCast]
  push_cast
  field_simp

theorem denotes_of_read {p : Parts} (h : Parts.read s = .ok p) :
    Denotes s (decimalValue p.digits p.exponent) :=
  ⟨p, Parts.read_eq_ok_iff.1 h, p.value_eq⟩

theorem Denotes.nonneg (h : Denotes s v) : 0 ≤ v := by
  obtain ⟨p, -, rfl⟩ := h
  rw [p.value_eq]
  exact Binary64.decimalValue_nonneg _ _

theorem Denotes.mem_double (h : Denotes s v) : s ∈ Grammar.double := by
  obtain ⟨p, hp, -⟩ := h
  exact hp.mem_double

theorem existsUnique_denotes (h : s ∈ Grammar.double) : ∃! v, Denotes s v := by
  obtain ⟨p, hp⟩ := Parts.exists_writes h
  refine ⟨p.value, ⟨p, hp, rfl⟩, ?_⟩
  rintro v ⟨q, hq, rfl⟩
  rw [Except.ok.inj (hq.read_eq.symm.trans hp.read_eq)]

/-! ## What is read -/

/-- A text is read as the number to which its value rounds, or the value is beyond all of them. -/
theorem read_cases (h : Denotes s v) :
    (∃ m < infinity, Double.read s = .ok (ofMagnitude m) ∧ RoundsTo v m) ∨
      Double.read s = .error ⟨.outOfRange, 0⟩ ∧ 2 ^ 1024 - 2 ^ 970 ≤ v := by
  obtain ⟨p, hp, rfl⟩ := h
  rw [Double.read_eq, hp.read_eq, p.value_eq]
  rcases Binary64.ofDecimal?_cases p.digits p.exponent with ⟨m, hm, hread, hrounds⟩ | ⟨hread, hv⟩
  · exact Or.inl ⟨m, hm, by simp [Except.bind, hread], hrounds⟩
  · exact Or.inr ⟨by simp [Except.bind, hread], hv⟩

theorem roundsTo_of_read (h : Denotes s v) (hread : Double.read s = .ok d) :
    ∃ m < infinity, d = ofMagnitude m ∧ RoundsTo v m := by
  rcases read_cases h with ⟨m, hm, hok, hrounds⟩ | ⟨herror, -⟩
  · exact ⟨m, hm, Except.ok.inj (hread.symm.trans hok), hrounds⟩
  · cases hread.symm.trans herror

/-- A text is refused exactly if its value is out of range. -/
theorem read_eq_outOfRange_iff (h : Denotes s v) :
    Double.read s = .error ⟨.outOfRange, 0⟩ ↔ 2 ^ 1024 - 2 ^ 970 ≤ v := by
  rcases read_cases h with ⟨m, hm, hok, hrounds⟩ | ⟨herror, hv⟩
  · rw [hok]
    exact iff_of_false nofun (not_le.2 (hrounds.lt_infinity_iff.1 hm))
  · exact iff_of_true herror hv

/-- The nearest number without sign is what is read. -/
theorem isNearest_iff_of_read (h : Denotes s v) (hread : Double.read s = .ok d) :
    d'.isNegative = false ∧ IsNearest v d' ↔ d' = d := by
  obtain ⟨m, hm, rfl, hrounds⟩ := roundsTo_of_read h hread
  have hlimit := hrounds.lt_infinity_iff.1 hm
  constructor
  · rintro ⟨hsign, hnearest⟩
    have hrounds' := ((Binary64.isNearest_iff h.nonneg hlimit hsign).1 hnearest).2
    rw [← Binary64.ofMagnitude_magnitude hsign, hrounds'.unique hrounds]
  · rintro rfl
    have hmagnitude := Binary64.magnitude_ofMagnitude hm
    have hsign := Binary64.isNegative_ofMagnitude hm
    refine ⟨hsign, (Binary64.isNearest_iff h.nonneg hlimit hsign).2 ?_⟩
    rw [hmagnitude]
    exact ⟨hm, hrounds⟩

theorem bits_le_of_le (h : Denotes s v) (h' : Denotes s' v') (hread : Double.read s = .ok d)
    (hread' : Double.read s' = .ok d') (hv : v ≤ v') : d.bits ≤ d'.bits := by
  obtain ⟨m, hm, rfl, hrounds⟩ := roundsTo_of_read h hread
  obtain ⟨m', hm', rfl, hrounds'⟩ := roundsTo_of_read h' hread'
  rw [UInt64.le_iff_toNat_le, Binary64.bits_ofMagnitude hm, Binary64.bits_ofMagnitude hm']
  exact hrounds.le_of_le hrounds' hv

/-- Up to half of the least number a value is read as zero. -/
theorem read_of_small (h : Denotes s v) (hv : v ≤ 1 / 2 ^ 1075) :
    Double.read s = .ok (ofMagnitude 0) := by
  have hhalf : (2 : ℚ) ^ 1075 = Binary64.unitsPerOne * 2 := by
    rw [Binary64.unitsPerOne_eq]
    exact pow_succ 2 1074
  have hzero : RoundsTo v 0 := by
    rw [hhalf, le_div_iff₀ (mul_pos Binary64.unitsPerOne_cast_pos two_pos)] at hv
    exact Binary64.roundsTo_zero_iff.2 ⟨h.nonneg, by linarith⟩
  rcases read_cases h with ⟨m, -, hread, hrounds⟩ | ⟨-, hlarge⟩
  · rw [hread, hrounds.unique hzero]
  · exact absurd (hzero.lt_infinity_iff.1 (by decide)) (not_lt.2 hlarge)

/-- A double is read as the nearest number without sign, ties going to an even significand, or it is
refused as out of range exactly from the halfway point behind the greatest finite number on. The
least values are read as zero. A greater value is not read as a lesser number. -/
theorem read_nearest :
    (∀ s ∈ Grammar.double, ∃! v, Denotes s v) ∧
    (∀ s v, Denotes s v → 0 ≤ v ∧
      ((∃ fault, Double.read s = .error ⟨fault, 0⟩ ∧ fault.kind = .invalidNumericLiteral ∧
          fault.message = .ascii "double literal out of range") ↔ 2 ^ 1024 - 2 ^ 970 ≤ v) ∧
      (v < 2 ^ 1024 - 2 ^ 970 → ∃ d, Double.read s = .ok d ∧ d.isNegative = false ∧
        IsNearest v d ∧ ∀ e : Binary64, e.isNegative = false → IsNearest v e → e = d) ∧
      (v ≤ 1 / 2 ^ 1075 → Double.read s = .ok ⟨0⟩)) ∧
    ∀ s s' v v' d d', Denotes s v → Denotes s' v' → Double.read s = .ok d →
      Double.read s' = .ok d' → v ≤ v' → d.bits ≤ d'.bits := by
  refine ⟨fun s => existsUnique_denotes, fun s v h => ⟨h.nonneg, ?_, fun hv => ?_, read_of_small h⟩,
    fun s s' v v' d d' h h' => bits_le_of_le h h'⟩
  · rw [← read_eq_outOfRange_iff h]
    constructor
    · rintro ⟨fault, herror, -, -⟩
      rcases read_cases h with ⟨m, -, hok, -⟩ | ⟨hrange, -⟩
      · cases hok.symm.trans herror
      · exact hrange
    · intro herror
      exact ⟨.outOfRange, herror, rfl, rfl⟩
  · rcases read_cases h with ⟨m, -, hread, -⟩ | ⟨-, hlarge⟩
    · obtain ⟨hsign, hnearest⟩ := (isNearest_iff_of_read h hread).2 rfl
      exact ⟨_, hread, hsign, hnearest, fun e he hnear =>
        (isNearest_iff_of_read h hread).1 ⟨he, hnear⟩⟩
    · exact absurd hv (not_lt.2 hlarge)

/-- Halfway between two neighbours the even one is read. One power of ten is too large for all
numbers, and one is so small that it is read as zero. -/
theorem read_nearest_halfway :
    let s := Bytes.ascii "9007199254740993"
    let d : Binary64 := ⟨0x4340000000000000⟩
    let v := decimalValue 9007199254740993 0
    s ∈ Grammar.double ∧ Denotes s v ∧ Double.read s = .ok d ∧ IsNearest v d ∧
      Denotes (Bytes.ascii "1e311") (decimalValue 1 311) ∧
      RefusedAt (Double.read (Bytes.ascii "1e311")) .invalidNumericLiteral 0 ∧
      Denotes (Bytes.ascii "1e-400") (decimalValue 1 (-400)) ∧
      Double.read (Bytes.ascii "1e-400") = .ok ⟨0⟩ ∧ (0 : UInt64) ≤ d.bits := by
  intro s d v
  obtain ⟨-, hread, hmono⟩ := read_nearest
  have hs : Denotes s v := denotes_of_read (p := ⟨s, [], false, []⟩) (by decide +kernel)
  have hlarge : Denotes (Bytes.ascii "1e311") (decimalValue 1 311) :=
    denotes_of_read (p := ⟨[0x31], [], false, Bytes.ascii "311"⟩) (by decide +kernel)
  have hsmall : Denotes (Bytes.ascii "1e-400") (decimalValue 1 (-400)) :=
    denotes_of_read (p := ⟨[0x31], [], true, Bytes.ascii "400"⟩) (by decide +kernel)
  have hd : Double.read s = .ok d := by decide +kernel
  have hlimit : v < 2 ^ 1024 - 2 ^ 970 := by
    by_contra hv
    obtain ⟨fault, herror, -⟩ := (hread s v hs).2.1.2 (not_lt.1 hv)
    cases hd.symm.trans herror
  obtain ⟨d', hd', -, hnearest, -⟩ := (hread s v hs).2.2.1 hlimit
  obtain rfl : d = d' := Except.ok.inj (hd.symm.trans hd')
  obtain ⟨fault, herror, hkind, -⟩ := (hread _ _ hlarge).2.1.2
    (Binary64.le_decimalValue_of_large one_ne_zero (by decide))
  have hpower : (2 : ℚ) ^ 1075 ≤ 10 ^ 331 := by
    exact_mod_cast (by decide +kernel : (2 : Nat) ^ 1075 ≤ 10 ^ 331)
  have hbound : decimalValue 1 (-400) ≤ 1 / 2 ^ 1075 := by
    refine (Binary64.decimalValue_le_of_small (by decide)).trans ?_
    rw [zpow_neg, ← one_div]
    exact one_div_le_one_div_of_le (by positivity) hpower
  have hzero := (hread _ _ hsmall).2.2.2 hbound
  have hle : decimalValue 1 (-400) ≤ v := by
    refine (hbound.trans (div_le_one_of_le₀ (one_le_pow₀ one_le_two) (by positivity))).trans ?_
    simp [v, decimalValue]
  exact ⟨hs.mem_double, hs, hd, hnearest, hlarge, ⟨fault, herror, hkind⟩, hsmall, hzero,
    hmono _ _ _ _ _ _ hsmall hs hzero hd hle⟩

end Munch.Literal.Double
