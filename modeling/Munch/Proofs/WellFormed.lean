import Mathlib.Tactic.SplitIfs
import Munch.Utf8

/-!
# Well-formed texts are made of code points

A text has no fault exactly if it is a row of code points. So well-formed texts can be put one
behind the other, and a byte below 0x80, which is a code point of its own and belongs to no
other one, can be taken away from either end.

## Main definitions

* `Utf8.IsCodePoint`: a text is one code point.
* `Utf8.WellFormed`: a text is a row of code points.
-/
namespace Munch.Utf8

/-- The text is one code point. -/
def IsCodePoint (s : Bytes) : Prop := codePointLength? s = some s.length

/-- The text is a row of code points. -/
inductive WellFormed : Bytes → Prop
  | nil : WellFormed []
  | cons {point s : Bytes} (hpoint : IsCodePoint point) (h : WellFormed s) :
      WellFormed (point ++ s)

/-! ## Code points -/

theorem matched_append {ranges : List (Byte × Byte)} {s : Bytes}
    (h : matched ranges s = ranges.length) (t : Bytes) :
    matched ranges (s ++ t) = ranges.length := by
  fun_induction matched ranges s with
  | case1 low high ranges b s hb ih =>
    rw [List.cons_append, matched, if_pos hb, ih (by simpa using h), List.length_cons]
  | case2 => simp at h
  | case3 ranges s hnot =>
    cases ranges with
    | nil => simp [matched]
    | cons => simp at h

theorem matched_take {ranges : List (Byte × Byte)} {s : Bytes}
    (h : matched ranges s = ranges.length) :
    matched ranges (s.take ranges.length) = ranges.length := by
  fun_induction matched ranges s with
  | case1 low high ranges b s hb ih =>
    rw [List.length_cons, List.take_succ_cons, matched, if_pos hb, ih (by simpa using h)]
  | case2 => simp at h
  | case3 ranges s hnot =>
    cases ranges with
    | nil => simp [matched]
    | cons => simp at h

/-- Every byte that meets a range of bytes from 0x80 on is such a byte. -/
theorem not_ascii_of_matched {ranges : List (Byte × Byte)} {s : Bytes}
    (hranges : ∀ range ∈ ranges, 0x80 ≤ range.1) (h : matched ranges s = s.length) :
    ∀ b ∈ s, 0x80 ≤ b := by
  fun_induction matched ranges s with
  | case1 low high ranges b s hb ih =>
    have hlow := hranges (low, high) (by simp)
    refine List.forall_mem_cons.2 ⟨UInt8.le_trans hlow hb.1, ih ?_ (by simpa using h)⟩
    exact fun range hrange => hranges range (List.mem_cons_of_mem _ hrange)
  | case2 => simp at h
  | case3 ranges s hnot =>
    rw [List.length_eq_zero_iff.1 h.symm]
    simp

theorem not_ascii_of_followers {lead : Byte} {ranges : List (Byte × Byte)}
    (h : followers lead = some ranges) : ∀ range ∈ ranges, 0x80 ≤ range.1 := by
  unfold followers at h
  split_ifs at h <;> cases h <;>
    simp

/-- A code point at the head of a text is one also if more is appended. -/
theorem codePointLength?_append {s : Bytes} {n : Nat} (h : codePointLength? s = some n)
    (t : Bytes) : codePointLength? (s ++ t) = some n := by
  cases s with
  | nil => cases h
  | cons lead s =>
    obtain ⟨ranges, hranges, hmatched, hn⟩ := codePointLength?_cons_eq_some.1 h
    exact codePointLength?_cons_eq_some.2 ⟨ranges, hranges, matched_append hmatched t, hn⟩

theorem isCodePoint_take {s : Bytes} {n : Nat} (h : codePointLength? s = some n) :
    IsCodePoint (s.take n) := by
  cases s with
  | nil => cases h
  | cons lead s =>
    have hle := codePointLength?_le h
    obtain ⟨ranges, hranges, hmatched, rfl⟩ := codePointLength?_cons_eq_some.1 h
    rw [IsCodePoint, List.length_take_of_le hle, List.take_succ_cons]
    exact codePointLength?_cons_eq_some.2 ⟨ranges, hranges, matched_take hmatched, rfl⟩

theorem isCodePoint_ascii {b : Byte} (h : b < 0x80) : IsCodePoint [b] :=
  codePointLength?_cons_eq_some.2 ⟨[], by simp [followers, h], rfl, rfl⟩

theorem IsCodePoint.ne_nil {s : Bytes} (h : IsCodePoint s) : s ≠ [] := by
  rintro rfl
  cases h

/-- A byte below 0x80 belongs to no code point but its own. -/
theorem IsCodePoint.eq_of_ascii_mem {s : Bytes} (h : IsCodePoint s) {b : Byte} (hb : b ∈ s)
    (hascii : b < 0x80) : s = [b] := by
  cases s with
  | nil => cases hb
  | cons lead s =>
    obtain ⟨ranges, hranges, hmatched, hlength⟩ := codePointLength?_cons_eq_some.1 h
    rw [List.length_cons, Nat.add_right_cancel_iff] at hlength
    rcases List.mem_cons.1 hb with rfl | hb
    · have hnil : ranges = [] := by simpa [followers, hascii, eq_comm] using hranges
      rw [hnil, List.length_nil, List.length_eq_zero_iff] at hlength
      rw [hlength]
    · have hge := not_ascii_of_matched (not_ascii_of_followers hranges)
        (hmatched.trans hlength.symm) b hb
      exact absurd hascii (UInt8.not_lt.2 hge)

/-! ## Texts -/

/-- A row of code points is passed over. -/
theorem faultFrom_append {s : Bytes} (h : WellFormed s) (index : Nat) (t : Bytes) :
    faultFrom index (s ++ t) = faultFrom (index + s.length) t := by
  induction h generalizing index with
  | nil => rfl
  | @cons point s hpoint _ ih =>
    rw [List.append_assoc, faultFrom_of_some (codePointLength?_append hpoint _), List.drop_left,
      ih, List.length_append, Nat.add_assoc]

theorem faultFrom_eq_none_of_wellFormed {s : Bytes} (h : WellFormed s) (index : Nat) :
    faultFrom index s = none := by
  rw [← List.append_nil s, faultFrom_append h, faultFrom_nil]

/-- The fault stands behind code points, where no other one begins. -/
theorem exists_of_faultFrom {s : Bytes} {first index : Nat} (h : faultFrom first s = some index) :
    ∃ k < s.length, index = first + k ∧ WellFormed (s.take k) ∧
      codePointLength? (s.drop k) = none := by
  fun_induction faultFrom first s with
  | case1 => cases h
  | case2 first s hs hnone =>
    cases h
    exact ⟨0, List.length_pos_iff.2 hs, rfl, .nil, hnone⟩
  | case3 first s hs n hn ih =>
    obtain ⟨k, hk, rfl, hwell, hnone⟩ := ih h
    rw [List.length_drop] at hk
    rw [List.drop_drop] at hnone
    refine ⟨n + k, by omega, Nat.add_assoc _ _ _, ?_, hnone⟩
    rw [List.take_add]
    exact .cons (isCodePoint_take hn) hwell

theorem wellFormed_of_faultFrom_eq_none {s : Bytes} {index : Nat} (h : faultFrom index s = none) :
    WellFormed s := by
  fun_induction faultFrom index s with
  | case1 => exact .nil
  | case2 => cases h
  | case3 index s hne n hn ih =>
    rw [← List.take_append_drop n s]
    exact .cons (isCodePoint_take hn) (ih h)

theorem firstFault?_eq_none_iff {s : Bytes} : firstFault? s = none ↔ WellFormed s :=
  ⟨wellFormed_of_faultFrom_eq_none, fun h => faultFrom_eq_none_of_wellFormed h 0⟩

theorem firstFault?_eq_some_iff {s : Bytes} {index : Nat} : firstFault? s = some index ↔
    index < s.length ∧ WellFormed (s.take index) ∧ codePointLength? (s.drop index) = none := by
  constructor
  · intro h
    obtain ⟨k, hk, rfl, hwell, hnone⟩ := exists_of_faultFrom h
    rw [Nat.zero_add]
    exact ⟨hk, hwell, hnone⟩
  · rintro ⟨hlt, hwell, hnone⟩
    have hne : s.drop index ≠ [] := by simpa using hlt
    have hlength : 0 + (s.take index).length = index := by simp; omega
    rw [firstFault?, ← List.take_append_drop index s, faultFrom_append hwell, hlength,
      faultFrom_of_none hne hnone]

theorem wellFormed_ascii_cons {b : Byte} {s : Bytes} (hb : b < 0x80) (h : WellFormed s) :
    WellFormed (b :: s) := .cons (isCodePoint_ascii hb) h

theorem wellFormed_of_ascii {s : Bytes} (h : s.all (fun b => b < 0x80) = true) :
    WellFormed s := by
  induction s with
  | nil => exact .nil
  | cons b s ih =>
    rw [List.all_cons, Bool.and_eq_true, decide_eq_true_eq] at h
    exact wellFormed_ascii_cons h.1 (ih h.2)

theorem firstFault?_of_ascii {s : Bytes} (h : s.all (fun b => b < 0x80) = true) :
    firstFault? s = none := firstFault?_eq_none_iff.2 (wellFormed_of_ascii h)

theorem WellFormed.append {s t : Bytes} (hs : WellFormed s) (ht : WellFormed t) :
    WellFormed (s ++ t) := by
  induction hs with
  | nil => exact ht
  | cons hpoint _ ih =>
    rw [List.append_assoc]
    exact .cons hpoint ih

theorem WellFormed.of_ascii_cons {b : Byte} {s : Bytes} (hb : b < 0x80)
    (h : WellFormed (b :: s)) : WellFormed s := by
  generalize ht : b :: s = t at h
  cases h with
  | nil => cases ht
  | @cons point rest hpoint hrest =>
    obtain ⟨c, point, rfl⟩ := List.exists_cons_of_ne_nil hpoint.ne_nil
    obtain ⟨rfl, rfl⟩ := List.cons.inj ht
    obtain rfl : point = [] := List.cons.inj (hpoint.eq_of_ascii_mem (by simp) hb) |>.2
    exact hrest

theorem WellFormed.of_append_ascii {b : Byte} {s : Bytes} (hb : b < 0x80)
    (h : WellFormed (s ++ [b])) : WellFormed s := by
  generalize ht : s ++ [b] = t at h
  induction h generalizing s with
  | nil => simp at ht
  | @cons point rest hpoint _ ih =>
    rcases List.append_eq_append_iff.1 ht with ⟨u, rfl, hu⟩ | ⟨u, rfl, hu⟩
    · -- The byte is in the last code point or it is behind it.
      cases u with
      | nil => simpa using WellFormed.cons hpoint .nil
      | cons c u =>
        obtain ⟨rfl, -⟩ := List.cons.inj hu
        have hs : s = [] := by
          have hlength := congrArg List.length (hpoint.eq_of_ascii_mem (b := b) (by simp) hb)
          simp only [List.length_append, List.length_cons, List.length_nil] at hlength
          exact List.length_eq_zero_iff.1 (by omega)
        rw [hs]
        exact .nil
    · exact .cons hpoint (ih hu.symm)

end Munch.Utf8
