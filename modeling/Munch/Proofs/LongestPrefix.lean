import Munch.Proofs.Grammar

/-!
# Longest prefixes in a language

`IsLongest l s n` says that `n` is the length of the longest non-empty prefix of `s` in `l`,
and zero if there is none. The longest prefix in a union is the longer one of the parts. In a
product it is the one that a greedy reading finds, as long as no shorter first part can be
followed by a second part that is not empty.

## Main definitions

* `Grammar.IsLongest`: the relation.
* `Grammar.IsLongest.add`, `Grammar.IsLongest.mul`: unions and products.
-/
namespace Munch.Grammar

open scoped Computability

/-- The longest non-empty prefix of `s` in `l` has length `n`; zero if there is none. -/
structure IsLongest (l : Language Byte) (s : Bytes) (n : Nat) : Prop where
  length_le : ∀ w ∈ l, w <+: s → w.length ≤ n
  attained : n ≠ 0 → ∃ w ∈ l, w <+: s ∧ w.length = n

variable {l l' : Language Byte} {s : Bytes} {n k : Nat}

theorem isLongest_zero_iff : IsLongest l s 0 ↔ ∀ w ∈ l, w <+: s → w = [] :=
  ⟨fun h w hw hs => List.eq_nil_of_length_eq_zero (Nat.le_zero.1 (h.length_le w hw hs)),
    fun h => ⟨fun w hw hs => by simp [h w hw hs], fun hn => absurd rfl hn⟩⟩

namespace IsLongest

theorem take_mem (h : IsLongest l s n) (hn : n ≠ 0) : s.take n ∈ l := by
  obtain ⟨w, hw, hs, rfl⟩ := h.attained hn
  rwa [← List.prefix_iff_eq_take.1 hs]

theorem le_length (h : IsLongest l s n) : n ≤ s.length := by
  by_cases hn : n = 0
  · omega
  · obtain ⟨w, _, hs, rfl⟩ := h.attained hn
    exact hs.length_le

theorem unique (h : IsLongest l s n) (h' : IsLongest l s k) : n = k := by
  have le_of {i j : Nat} (hi : IsLongest l s i) (hj : IsLongest l s j) : i ≤ j := by
    by_cases h0 : i = 0
    · omega
    · obtain ⟨w, hw, hs, rfl⟩ := hi.attained h0
      exact hj.length_le w hw hs
  exact Nat.le_antisymm (le_of h h') (le_of h' h)

/-! ## Unions -/

theorem add (h : IsLongest l s n) (h' : IsLongest l' s k) : IsLongest (l + l') s (max n k) where
  length_le w hw hs := by
    rcases hw with hw | hw
    · exact le_max_of_le_left (h.length_le w hw hs)
    · exact le_max_of_le_right (h'.length_le w hw hs)
  attained hn := by
    rcases le_total k n with hle | hle
    · rw [max_eq_left hle] at hn ⊢
      obtain ⟨w, hw, hs⟩ := h.attained hn
      exact ⟨w, Or.inl hw, hs⟩
    · rw [max_eq_right hle] at hn ⊢
      obtain ⟨w, hw, hs⟩ := h'.attained hn
      exact ⟨w, Or.inr hw, hs⟩

/-- The empty text does not count as a match. -/
theorem optional (h : IsLongest l s n) : IsLongest (optional l) s n where
  length_le w hw hs := by
    rcases mem_optional.1 hw with rfl | hw
    · exact Nat.zero_le n
    · exact h.length_le w hw hs
  attained hn := by
    obtain ⟨w, hw, hs⟩ := h.attained hn
    exact ⟨w, mem_optional.2 (Or.inr hw), hs⟩

/-! ## Products -/

/-- A first part shorter than the longest is not followed by a second part, unless an empty
one. -/
def Greedy (l l' : Language Byte) (s : Bytes) (n : Nat) : Prop :=
  ∀ w ∈ l, ∀ u ∈ l', w ++ u <+: s → w.length < n → u = []

theorem greedy_of_length (h : ∀ w ∈ l, w.length = n) : Greedy l l' s n :=
  fun w hw _ _ _ hlt => absurd (h w hw) (by omega)

/-- If second parts do not begin with bytes of first parts, a first part that stops early is
followed by a byte that begins no second part. -/
theorem greedy_of_disjoint {p : Set Byte} (h : IsLongest l s n) (hl : ∀ w ∈ l, ∀ b ∈ w, b ∈ p)
    (hl' : ∀ b u, b :: u ∈ l' → b ∉ p) : Greedy l l' s n := by
  intro w hw u hu hs hlt
  cases u with
  | nil => rfl
  | cons b u =>
    obtain ⟨v, hv, hvs, rfl⟩ := h.attained (by omega)
    have hwb : w ++ [b] <+: s := (List.prefix_append (w ++ [b]) u).trans (by simpa using hs)
    have hwv : w ++ [b] <+: v :=
      List.prefix_of_prefix_length_le hwb hvs (by simpa using Nat.succ_le_of_lt hlt)
    exact absurd (hl v hv b (hwv.subset (by simp))) (hl' b u hu)

theorem length_le_of_mul (h : IsLongest l s n) (h' : IsLongest l' (s.drop n) k)
    (hg : Greedy l l' s n) {w u : Bytes} (hw : w ∈ l) (hu : u ∈ l') (hs : w ++ u <+: s) :
    u = [] ∧ w.length < n ∨ w.length = n ∧ u.length ≤ k := by
  have hws : w <+: s := (List.prefix_append w u).trans hs
  rcases Nat.lt_or_eq_of_le (h.length_le w hw hws) with hlt | rfl
  · exact Or.inl ⟨hg w hw u hu hs hlt, hlt⟩
  · obtain ⟨t, rfl⟩ := hws
    rw [List.drop_left] at h'
    exact Or.inr ⟨rfl, h'.length_le u hu (by simpa using hs)⟩

/-- The longest match of a product is the longest first part with the longest second part
after it. -/
theorem mul (h : IsLongest l s n) (h' : IsLongest l' (s.drop n) k) (hg : Greedy l l' s n)
    (hn : n ≠ 0) (hk : k ≠ 0 ∨ [] ∈ l') : IsLongest (l * l') s (n + k) where
  length_le x hx hs := by
    obtain ⟨w, hw, u, hu, rfl⟩ := hx
    rw [List.length_append]
    rcases length_le_of_mul h h' hg hw hu hs with ⟨rfl, hlt⟩ | ⟨hlen, hle⟩
    · simp only [List.length_nil]; omega
    · omega
  attained _ := by
    obtain ⟨w, hw, ⟨t, rfl⟩, rfl⟩ := h.attained hn
    rw [List.drop_left] at h'
    have hsecond : ∃ u ∈ l', u <+: t ∧ u.length = k := by
      by_cases h0 : k = 0
      · exact ⟨[], hk.resolve_left (not_not_intro h0), List.nil_prefix, by simp [h0]⟩
      · exact h'.attained h0
    obtain ⟨u, hu, hut, rfl⟩ := hsecond
    exact ⟨w ++ u, ⟨w, hw, u, hu, rfl⟩, (List.prefix_append_right_inj w).2 hut, by simp⟩

/-- Without a first part there is no match of a product. -/
theorem mul_of_left_zero (h : IsLongest l s 0) (hl : [] ∉ l) : IsLongest (l * l') s 0 := by
  refine isLongest_zero_iff.2 fun x ⟨w, hw, u, _, hx⟩ hs => ?_
  subst hx
  have hw' := isLongest_zero_iff.1 h w hw ((List.prefix_append w u).trans hs)
  exact absurd (hw' ▸ hw) hl

/-- Without a second part there is no match of a product. -/
theorem mul_of_right_zero (h : IsLongest l s n) (h' : IsLongest l' (s.drop n) 0)
    (hg : Greedy l l' s n) (hl' : [] ∉ l') : IsLongest (l * l') s 0 := by
  refine isLongest_zero_iff.2 fun x ⟨w, hw, u, hu, hx⟩ hs => ?_
  subst hx
  rcases length_le_of_mul h h' hg hw hu hs with ⟨rfl, _⟩ | ⟨_, hle⟩
  · exact absurd hu hl'
  · rw [List.eq_nil_of_length_eq_zero (Nat.le_zero.1 hle)] at hu
    exact absurd hu hl'

end IsLongest

/-- Nothing but the empty text stands at the head of the empty text. -/
theorem isLongest_nil : IsLongest l [] 0 :=
  isLongest_zero_iff.2 fun _ _ hs => List.prefix_nil.1 hs

/-! ## Fixed texts -/

theorem isLongest_singleton (t s : Bytes) :
    IsLongest {t} s (if t.isPrefixOf s then t.length else 0) := by
  split
  · exact ⟨fun w hw _ => (congrArg List.length hw).le,
      fun _ => ⟨t, rfl, List.isPrefixOf_iff_prefix.1 ‹_›, rfl⟩⟩
  · exact isLongest_zero_iff.2 fun w hw hs =>
      absurd (hw ▸ hs) (mt List.isPrefixOf_iff_prefix.2 ‹_›)

/-- After a fixed text that stands at the head, the longest match goes on with the longest
match of what follows. -/
theorem IsLongest.singleton_mul {t : Bytes} (ht : t ≠ []) (hs : t <+: s)
    (h : IsLongest l (s.drop t.length) k) (hk : k ≠ 0 ∨ [] ∈ l) :
    IsLongest ({t} * l) s (t.length + k) := by
  have hfirst := isLongest_singleton t s
  rw [if_pos (List.isPrefixOf_iff_prefix.2 hs)] at hfirst
  exact hfirst.mul h (IsLongest.greedy_of_length fun w hw => congrArg List.length hw)
    (by simpa using ht) hk

theorem isLongest_singleton_mul_of_not_prefix {t : Bytes} (h : ¬ t <+: s) :
    IsLongest ({t} * l) s 0 := by
  refine isLongest_zero_iff.2 fun x ⟨w, hw, u, _, hx⟩ hs => ?_
  subst hx
  obtain rfl : w = t := hw
  exact absurd ((List.prefix_append w u).trans hs) h

/-! ## One byte from a set -/

section Byte

variable {p : Set Byte} {b : Byte}

theorem mem_of_cons_mem_byte_mul {u : Bytes} (h : b :: u ∈ byte p * l) : b ∈ p ∧ u ∈ l := by
  obtain ⟨_, ⟨c, hc, rfl⟩, v, hv, hu⟩ := h
  obtain ⟨rfl, rfl⟩ := List.cons.inj hu
  exact ⟨hc, hv⟩

theorem nil_notMem_byte_mul : [] ∉ byte p * l := by
  rintro ⟨_, ⟨c, _, rfl⟩, v, _, h⟩
  exact List.cons_ne_nil c v h

theorem cons_mem_byte_mul {u : Bytes} (hb : b ∈ p) (hu : u ∈ l) : b :: u ∈ byte p * l :=
  ⟨[b], ⟨b, hb, rfl⟩, u, hu, rfl⟩

/-- After a byte of the set, the longest match goes on with the longest match of the rest. -/
theorem IsLongest.byte_mul (hb : b ∈ p) (h : IsLongest l s k) (hk : k ≠ 0 ∨ [] ∈ l) :
    IsLongest (byte p * l) (b :: s) (1 + k) where
  length_le w hw hs := by
    cases w with
    | nil => exact Nat.zero_le _
    | cons c u =>
      have := h.length_le u (mem_of_cons_mem_byte_mul hw).2 (List.cons_prefix_cons.1 hs).2
      rw [List.length_cons]
      omega
  attained _ := by
    have hrest : ∃ u ∈ l, u <+: s ∧ u.length = k := by
      by_cases h0 : k = 0
      · exact ⟨[], hk.resolve_left (not_not_intro h0), List.nil_prefix, h0.symm⟩
      · exact h.attained h0
    obtain ⟨u, hu, hs, rfl⟩ := hrest
    exact ⟨b :: u, cons_mem_byte_mul hb hu, List.cons_prefix_cons.2 ⟨rfl, hs⟩, by simp; omega⟩

theorem IsLongest.byte_mul_zero (h : IsLongest l s 0) (hl : [] ∉ l) :
    IsLongest (byte p * l) (b :: s) 0 := by
  refine isLongest_zero_iff.2 fun w hw hs => ?_
  cases w with
  | nil => rfl
  | cons c u =>
    have hu := (mem_of_cons_mem_byte_mul hw).2
    exact absurd (isLongest_zero_iff.1 h u hu (List.cons_prefix_cons.1 hs).2 ▸ hu) hl

theorem isLongest_byte_mul_of_notMem (hb : b ∉ p) : IsLongest (byte p * l) (b :: s) 0 := by
  refine isLongest_zero_iff.2 fun w hw hs => ?_
  cases w with
  | nil => rfl
  | cons c u =>
    obtain rfl : c = b := (List.cons_prefix_cons.1 hs).1
    exact absurd (mem_of_cons_mem_byte_mul hw).1 hb

end Byte

/-! ## Runs -/

section Runs

variable {p : Set Byte} {q : Byte → Bool}

theorem takeWhile_length_of_prefix (hq : ∀ {b}, q b = true ↔ b ∈ p) {w : Bytes}
    (hw : ∀ b ∈ w, b ∈ p) (hs : w <+: s) : w.length ≤ (s.takeWhile q).length := by
  obtain ⟨t, rfl⟩ := hs
  rw [List.takeWhile_append_of_pos fun b hb => hq.2 (hw b hb), List.length_append]
  exact Nat.le_add_right _ _

theorem mem_of_mem_takeWhile (hq : ∀ {b}, q b = true ↔ b ∈ p) {b : Byte}
    (hb : b ∈ s.takeWhile q) : b ∈ p := hq.1 (List.all_eq_true.1 List.all_takeWhile b hb)

theorem isLongest_star_byte (hq : ∀ {b}, q b = true ↔ b ∈ p) (s : Bytes) :
    IsLongest (byte p)∗ s (s.takeWhile q).length where
  length_le _ hw hs := takeWhile_length_of_prefix hq (mem_star_byte.1 hw) hs
  attained _ :=
    ⟨s.takeWhile q, mem_star_byte.2 fun _ => mem_of_mem_takeWhile hq, List.takeWhile_prefix q, rfl⟩

theorem isLongest_many_byte (hq : ∀ {b}, q b = true ↔ b ∈ p) (s : Bytes) :
    IsLongest (many (byte p)) s (s.takeWhile q).length where
  length_le _ hw hs := takeWhile_length_of_prefix hq (mem_many_byte.1 hw).2 hs
  attained hn :=
    ⟨s.takeWhile q,
      mem_many_byte.2 ⟨fun h => hn (by simp [h]), fun _ => mem_of_mem_takeWhile hq⟩,
      List.takeWhile_prefix q, rfl⟩

end Runs

end Munch.Grammar
