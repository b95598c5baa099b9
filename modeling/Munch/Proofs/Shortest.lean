import Munch.Proofs.DecimalGrid

/-!
# The shortest decimal

If a decimal of `n` digits is read as a number, one of the two neighbours of the number on the grid
of `n` digits is. So the search for a short decimal passes over no length at which there is one. It
ends at seventeen digits, where the grid is finer than the scale of numbers.

## Main definitions

* `Binary64.IsShortest`: no decimal that is read as a number is shorter, or as short and nearer.
-/
namespace Munch.Binary64

/-! ## The search -/

section Search

variable {m : Nat}

/-- The search for the greatest power of ten in a number ends between two powers. -/
theorem greatest_pow_spec {whole bits : Nat} (hpos : 0 < whole) (hend : whole < 10 ^ 2 ^ bits) :
    let k := greatest (fun k => decide (Nat.pow 10 k ≤ whole)) bits 0
    10 ^ k ≤ whole ∧ whole < 10 ^ (k + 1) := by
  let fits : Nat → Bool := fun k => decide (Nat.pow 10 k ≤ whole)
  have hfirst : fits 0 = true := decide_eq_true hpos
  have hlast : fits (0 + Nat.pow 2 bits) = false := by
    rw [Nat.zero_add]
    exact decide_eq_false (Nat.not_le.2 hend)
  constructor
  · exact of_decide_eq_true (greatest_fits bits hfirst)
  · exact Nat.not_le.1 (of_decide_eq_false (not_greatest_succ_fits bits hlast))

theorem wholeDigits_eq_fun : wholeDigits = fun m =>
    greatest (fun k => Nat.pow 10 k ≤ units m * stepsPerOne / unitsPerOne) 10 0 + 1 := by
  delta wholeDigits
  rfl

/-- The search covers the digits of all finite magnitudes, which have no fewer than seventeen. -/
theorem wholeDigits_spec (hm : m ≠ 0) (hfinite : m < infinity) :
    let whole := units m * stepsPerOne / unitsPerOne
    10 ^ (wholeDigits m - 1) ≤ whole ∧ whole < 10 ^ wholeDigits m ∧ 17 ≤ wholeDigits m := by
  intro whole
  have hlow : 10 ^ 16 ≤ whole := by
    have hunits : 0 < units m := (Nat.zero_le _).trans_lt (units_strictMono (Nat.pos_of_ne_zero hm))
    have hnumeric : 10 ^ 16 * unitsPerOne ≤ stepsPerOne := by decide +kernel
    rw [Nat.le_div_iff_mul_le unitsPerOne_pos]
    exact hnumeric.trans (Nat.le_mul_of_pos_left _ hunits)
  have hhigh : whole < 10 ^ 2 ^ 10 := by
    have hnumeric : units infinity * stepsPerOne / unitsPerOne < 10 ^ 2 ^ 10 := by decide +kernel
    refine lt_of_le_of_lt (Nat.div_le_div_right (Nat.mul_le_mul_right _ ?_)) hnumeric
    exact (units_strictMono hfinite).le
  obtain ⟨hfits, hnext⟩ := greatest_pow_spec (hlow.trans_lt' (by decide)) hhigh
  have hdigits := congrFun wholeDigits_eq_fun m
  rw [hdigits, Nat.add_sub_cancel]
  generalize greatest (fun k => decide (Nat.pow 10 k ≤ whole)) 10 0 = k at hfits hnext
  refine ⟨hfits, hnext, ?_⟩
  by_contra hlt
  have hpow : 10 ^ (k + 1) ≤ 10 ^ 16 := Nat.pow_le_pow_right (by decide) (by omega)
  exact absurd (hlow.trans_lt hnext) (Nat.not_lt.2 hpow)

section Length

variable {n : Nat} (hm : m ≠ 0) (hfinite : m < infinity)
include hm hfinite

/-- A power of ten is the first point of the grid of `n` digits. -/
theorem decimalValue_pow_le (hn : 0 < n) (hlast : n ≤ 17) :
    decimalValue (10 ^ (n - 1)) ((wholeDigits m - n : Nat) - 340) ≤ magnitudeValue m := by
  obtain ⟨hwhole, -, hdigits⟩ := wholeDigits_spec hm hfinite
  have hexponent : n - 1 + (wholeDigits m - n) = wholeDigits m - 1 := by omega
  rw [decimalValue_le_magnitudeValue_iff, ← Nat.pow_add, hexponent]
  exact hwhole

/-- The lower neighbour on the grid of `n` digits has no more digits. -/
theorem gridFloor_lt (hlast : n ≤ 17) : gridFloor m (10 ^ (wholeDigits m - n)) < 10 ^ n := by
  obtain ⟨-, hwhole, hdigits⟩ := wholeDigits_spec hm hfinite
  have hlt : magnitudeValue m < decimalValue (10 ^ n) ((wholeDigits m - n : Nat) - 340) := by
    have hexponent : n + (wholeDigits m - n) = wholeDigits m := by omega
    rw [← not_le, decimalValue_le_magnitudeValue_iff, ← Nat.pow_add, hexponent]
    exact Nat.not_le.2 hwhole
  have hfloor := (decimalValue_gridFloor_le m (wholeDigits m - n)).trans_lt hlt
  rwa [← not_le, decimalValue_le_iff, Nat.not_le] at hfloor

/-- Next to a decimal of `n` digits that rounds to a magnitude there is a neighbour of the magnitude
on the grid that rounds to it too and is no farther from it. -/
theorem exists_nearer_neighbour (hn : 0 < n) (hlast : n ≤ 17) {y : Decimal}
    (hy : y.digits < 10 ^ n) (hrounds : RoundsTo y.value m) :
    let k := wholeDigits m - n
    ∃ b, (b = gridFloor m (10 ^ k) ∨ b = gridFloor m (10 ^ k) + 1) ∧
      RoundsTo (decimalValue b (k - 340)) m ∧
        |magnitudeValue m - decimalValue b (k - 340)| ≤ |magnitudeValue m - y.value| := by
  intro k
  have hself := roundsTo_magnitudeValue hm
  have hfloor := decimalValue_gridFloor_le m k
  have hceil := lt_decimalValue_gridFloor_succ m k
  rcases value_le_or_le hn hy (decimalValue_pow_le hm hfinite hn hlast) hceil with hle | hge
  · refine ⟨_, Or.inl rfl, hrounds.between hself hle hfloor, ?_⟩
    rw [abs_of_nonneg (sub_nonneg.2 hfloor), abs_of_nonneg (sub_nonneg.2 (hle.trans hfloor))]
    exact sub_le_sub_left hle _
  · refine ⟨_, Or.inr rfl, hself.between hrounds hceil.le hge, ?_⟩
    rw [abs_of_nonpos (sub_nonpos.2 hceil.le), abs_of_nonpos (sub_nonpos.2 (hceil.le.trans hge))]
    linarith

/-- Seventeen digits read back. -/
theorem exists_neighbour?_seventeen : ∃ a, neighbour? m (10 ^ (wholeDigits m - 17)) = some a := by
  have hpow := decimalValue_pow_le hm hfinite (show 0 < 17 by decide) le_rfl
  generalize wholeDigits m - 17 = k at hpow ⊢
  refine exists_neighbour? (roundsTo_or_of_close hm (decimalValue_gridFloor_le m k)
    (lt_decimalValue_gridFloor_succ m k).le ?_)
  have hunits : 2 * magnitudeValue m + 10 ^ 16 * magnitudeValue (m - 1) <
      10 ^ 16 * magnitudeValue (m + 1) := by
    have hlt := two_mul_units_lt hm
    rw [magnitudeValue, magnitudeValue, magnitudeValue, ← mul_div_assoc, ← mul_div_assoc,
      ← mul_div_assoc, ← add_div, div_lt_div_iff_of_pos_right unitsPerOne_cast_pos]
    exact_mod_cast hlt
  simp only [decimalValue, Nat.cast_pow, Nat.cast_ofNat, Nat.cast_add, Nat.cast_one,
    Nat.reduceSub] at hpow ⊢
  linarith

/-- The search ends at the first length at which a decimal reads back. -/
theorem exists_shortest_eq : ∃ n a, 0 < n ∧ n ≤ 17 ∧
    neighbour? m (10 ^ (wholeDigits m - n)) = some a ∧
      shortest m = Decimal.strip ⟨a, (wholeDigits m - n : Nat) - 340⟩ ∧
        ∀ l, 0 < l → l < n → neighbour? m (10 ^ (wholeDigits m - l)) = none := by
  obtain ⟨last, hlast⟩ := exists_neighbour?_seventeen hm hfinite
  have hfound : ((List.range' 1 17).findSome? (decimalOfLength? m (wholeDigits m))).isSome = true :=
    List.findSome?_isSome_iff.2
      ⟨17, by decide, Option.isSome_iff_exists.2 ⟨_, Option.map_eq_some_iff.2 ⟨last, hlast, rfl⟩⟩⟩
  obtain ⟨x, hx⟩ := Option.isSome_iff_exists.1 hfound
  obtain ⟨shorter, n, longer, hrange, hn, hnone⟩ := List.findSome?_eq_some_iff.1 hx
  obtain ⟨k, hk, rfl, hrest⟩ := List.range'_eq_append_iff.1 hrange
  obtain ⟨hfirst, hlt, -⟩ := List.range'_eq_cons_iff.1 hrest.symm
  obtain ⟨a, ha, rfl⟩ := Option.map_eq_some_iff.1 hn
  refine ⟨n, a, by omega, by omega, ha, ?_, fun l hl hln => ?_⟩
  · simp only [shortest, if_neg hm, hx, Option.getD_some]
  · have hl' := hnone l (List.mem_range'_1.2 ⟨hl, by omega⟩)
    exact Option.map_eq_none_iff.1 hl'

end Length

end Search

/-! ## The decimal that is written -/

/-- The decimal that is written for a finite magnitude rounds to it. -/
theorem roundsTo_shortest {m : Nat} (hm : m < infinity) : RoundsTo (shortest m).value m := by
  by_cases h0 : m = 0
  · subst h0
    have hzero : (shortest 0).value = 0 := by simp [shortest, Decimal.value, decimalValue]
    exact hzero ▸ roundsTo_zero
  · obtain ⟨n, a, -, -, ha, hshortest, -⟩ := exists_shortest_eq h0 hm
    rw [hshortest, Decimal.value_strip]
    exact (neighbour?_spec ha).2.1

/-- The decimal is read as the number. No decimal that is read as the number has fewer digits, and
none with as few digits is nearer to it. -/
structure IsShortest (d : Binary64) (x : Decimal) : Prop where
  read_eq : ofDecimal? x.digits x.exponent = some d
  length_le (y : Decimal) (hy : ofDecimal? y.digits y.exponent = some d) :
    (Bytes.decimal x.digits).length ≤ (Bytes.decimal y.digits).length
  abs_le (y : Decimal) (hy : ofDecimal? y.digits y.exponent = some d)
    (hlength : (Bytes.decimal y.digits).length ≤ (Bytes.decimal x.digits).length) :
    |d.value - x.value| ≤ |d.value - y.value|

variable {m : Nat} {d : Binary64}

theorem roundsTo_of_ofDecimal? {y : Decimal} (hm : m < infinity)
    (h : ofDecimal? y.digits y.exponent = some (ofMagnitude m)) : RoundsTo y.value m := by
  rcases ofDecimal?_cases y.digits y.exponent with ⟨m', hm', hread, hrounds⟩ | ⟨hread, -⟩
  · have heq := congrArg magnitude (Option.some.inj (h.symm.trans hread))
    rw [magnitude_ofMagnitude hm, magnitude_ofMagnitude hm'] at heq
    exact heq ▸ hrounds
  · cases h.symm.trans hread

theorem isShortest_zero : IsShortest (ofMagnitude 0) (shortest 0) := by
  have hzero : shortest 0 = ⟨0, 0⟩ := by simp [shortest]
  have hlength : (Bytes.decimal 0).length = 1 := by rw [Bytes.decimal, if_pos (by decide)]; rfl
  have hvalue : (ofMagnitude 0).value = 0 := by
    rw [value_of_not_isNegative (by decide), magnitude_ofMagnitude (by decide),
      magnitudeValue_zero]
  rw [hzero]
  refine ⟨rfl, fun y _ => ?_, fun y _ _ => ?_⟩
  · rw [hlength]
    exact List.length_pos_iff.2 (Bytes.decimal_ne_nil _)
  · simp only [hvalue, Decimal.value, decimalValue, Nat.cast_zero, zero_mul, sub_zero, abs_zero]
    exact abs_nonneg _

/-- What is written for a finite number without sign is its shortest decimal. -/
theorem isShortest_shortest (hm : m < infinity) : IsShortest (ofMagnitude m) (shortest m) := by
  by_cases h0 : m = 0
  · exact h0 ▸ isShortest_zero
  obtain ⟨n, a, hn, hlast, ha, hshortest, hnone⟩ := exists_shortest_eq h0 hm
  obtain ⟨hgrid, -, hnearest⟩ := neighbour?_spec ha
  have hlength : (Bytes.decimal (shortest m).digits).length ≤ n := by
    have hfloor := gridFloor_lt h0 hm hlast
    rw [hshortest]
    exact Bytes.length_decimal_le hn (Decimal.digits_strip_lt hn (show a ≤ 10 ^ n by omega))
  have hdigits (y : Decimal) : 0 < (Bytes.decimal y.digits).length :=
    List.length_pos_iff.2 (Bytes.decimal_ne_nil y.digits)
  refine ⟨ofDecimal?_eq (roundsTo_shortest hm) hm, fun y hy => ?_, fun y hy hle => ?_⟩
  · -- A shorter decimal would have stopped the search.
    by_contra hlt
    obtain ⟨b, hb, hrounds, -⟩ := exists_nearer_neighbour h0 hm (hdigits y) (by omega)
      y.digits_lt (roundsTo_of_ofDecimal? hm hy)
    obtain ⟨a', ha'⟩ := exists_neighbour? <| hb.imp (fun h => h ▸ hrounds) fun h => h ▸ hrounds
    rw [hnone _ (hdigits y) (by omega)] at ha'
    cases ha'
  · have hlt : y.digits < 10 ^ n :=
      y.digits_lt.trans_le (Nat.pow_le_pow_right (by decide) (hle.trans hlength))
    obtain ⟨b, hb, hrounds, hnear⟩ := exists_nearer_neighbour h0 hm hn hlast hlt
      (roundsTo_of_ofDecimal? hm hy)
    rw [value_of_not_isNegative (isNegative_ofMagnitude hm), magnitude_ofMagnitude hm, hshortest,
      Decimal.value_strip]
    exact (hnearest b hb hrounds).trans hnear

end Munch.Binary64
