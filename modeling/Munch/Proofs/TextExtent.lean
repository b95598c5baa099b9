import Munch.Proofs.LongestPrefix

/-!
# The extent of a text literal

The body of a text literal splits into single bytes and escaped pairs exactly if every quote
in it stands right after a backslash. So the two readings of a backslash come down to one bit,
whether the byte before was a backslash, and the scan finds the longest literal.

## Main definitions

* `Grammar.Escaped`: every quote of a text stands right after a backslash.
* `Grammar.closing`: a body and its closing quote.
-/
namespace Munch.Grammar

open scoped Computability

/-- Every quote of a text stands right after a backslash; `after` says whether the text itself
does. -/
def Escaped (after : Bool) : Bytes → Prop
  | [] => True
  | b :: s => (b = Byte.quote → after = true) ∧ Escaped (b == Byte.backslash) s

theorem Escaped.mono {after : Bool} {s : Bytes} (h : Escaped false s) : Escaped after s := by
  cases s with
  | nil => trivial
  | cons b s => exact ⟨fun hb => absurd (h.1 hb) Bool.false_ne_true, h.2⟩

theorem Escaped.of_head_ne {after : Bool} {b : Byte} {s : Bytes} (hb : b ≠ Byte.quote)
    (h : Escaped after (b :: s)) : Escaped false (b :: s) :=
  ⟨fun h => absurd h hb, h.2⟩

/-- A text goes on after another one with what this one leaves: a backslash or not. -/
theorem escaped_append {after : Bool} {s t : Bytes} : Escaped after (s ++ t) ↔
    Escaped after s ∧ Escaped (s.getLast?.elim after (· == Byte.backslash)) t := by
  induction s generalizing after with
  | nil => simp [Escaped]
  | cons b s ih =>
    rw [List.cons_append, Escaped, Escaped, ih, and_assoc, List.getLast?_cons]
    cases s.getLast? <;> rfl

theorem escaped_of_quote_notMem {after : Bool} {s : Bytes} (h : Byte.quote ∉ s) :
    Escaped after s := by
  induction s generalizing after with
  | nil => trivial
  | cons b s ih =>
    obtain ⟨hb, hs⟩ := not_or.1 (List.mem_cons.not.1 h)
    exact ⟨fun h => absurd h.symm hb, ih hs⟩

/-! ## Bodies -/

/-- A byte of its own, or an escaped pair. -/
def textItem : Language Byte := byte {0x22}ᶜ + byte {0x5C} * byte Set.univ

theorem escaped_item_append {item s : Bytes} (hitem : item ∈ textItem) (hs : Escaped false s) :
    Escaped false (item ++ s) := by
  rcases hitem with ⟨b, hb, rfl⟩ | ⟨_, ⟨b, rfl, rfl⟩, _, ⟨c, _, rfl⟩, rfl⟩
  · exact ⟨fun h => absurd h hb, hs.mono⟩
  · exact ⟨fun h => absurd h (by decide), fun _ => rfl, hs.mono⟩

theorem mem_textBody_iff {s : Bytes} : s ∈ textBody ↔ Escaped false s := by
  constructor
  · rintro ⟨items, rfl, hitems⟩
    induction items with
    | nil => trivial
    | cons item items ih =>
      exact escaped_item_append (hitems item (by simp)) (ih fun t ht => hitems t (by simp [ht]))
  · have cons_item {item s : Bytes} (hitem : item ∈ textItem) (hs : s ∈ textBody) :
        item ++ s ∈ textBody := by
      obtain ⟨items, rfl, hitems⟩ := hs
      exact ⟨item :: items, rfl, List.forall_mem_cons.2 ⟨hitem, hitems⟩⟩
    intro h
    induction hn : s.length using Nat.strongRecOn generalizing s with
    | ind n ih =>
    cases s with
    | nil => exact Language.nil_mem_kstar _
    | cons b s =>
      subst hn
      have hb : b ≠ Byte.quote := fun hb => Bool.false_ne_true (h.1 hb)
      have single (hs : Escaped false s) : b :: s ∈ textBody := by
        have hitem : [b] ∈ textItem := Or.inl ⟨b, hb, rfl⟩
        exact cons_item hitem (ih s.length (by simp) hs rfl)
      -- A backslash makes a pair only with a quote after it.
      by_cases hpair : b = Byte.backslash ∧ s.head? = some Byte.quote
      · obtain ⟨rfl, hhead⟩ := hpair
        obtain ⟨t, rfl⟩ := List.head?_eq_some_iff.1 hhead
        have hitem : [Byte.backslash, Byte.quote] ∈ textItem :=
          Or.inr ⟨_, ⟨_, rfl, rfl⟩, _, ⟨_, trivial, rfl⟩, rfl⟩
        have hlt : t.length < (Byte.backslash :: Byte.quote :: t).length :=
          Nat.lt_add_of_pos_right Nat.two_pos
        exact cons_item hitem (ih t.length hlt h.2.2 rfl)
      · cases s with
        | nil => exact single trivial
        | cons c t =>
          by_cases hc : c = Byte.quote
          · have hne : (b == Byte.backslash) = false := by
              simpa [hc] using hpair
            exact single (hne ▸ h.2)
          · exact single (h.2.of_head_ne hc)

/-! ## Closing quotes -/

/-- The rest of a literal: a body and the closing quote. -/
def closing (after : Bool) : Language Byte := {s | ∃ w, Escaped after w ∧ s = w ++ [Byte.quote]}

theorem nil_notMem_closing {after : Bool} : [] ∉ closing after := by
  rintro ⟨w, _, h⟩
  simp at h

/-- A quote at the head closes the literal, or it is escaped and belongs to the body. -/
theorem cons_mem_closing_iff {after : Bool} {b : Byte} {s : Bytes} :
    b :: s ∈ closing after ↔
      b = Byte.quote ∧ s = [] ∨
        (b = Byte.quote → after = true) ∧ s ∈ closing (b == Byte.backslash) := by
  constructor
  · rintro ⟨w, hw, h⟩
    cases w with
    | nil => exact Or.inl (List.cons.inj h)
    | cons c w =>
      obtain ⟨rfl, rfl⟩ := List.cons.inj h
      exact Or.inr ⟨hw.1, w, hw.2, rfl⟩
  · rintro (⟨rfl, rfl⟩ | ⟨hb, w, hw, rfl⟩)
    · exact ⟨[], trivial, rfl⟩
    · exact ⟨b :: w, ⟨hb, hw⟩, rfl⟩

theorem text_eq : text = byte {0x22} * closing false := by
  ext s
  constructor
  · rintro ⟨_, ⟨_, rfl, w, hw, rfl⟩, _, rfl, rfl⟩
    exact cons_mem_byte_mul rfl ⟨w, mem_textBody_iff.1 hw, rfl⟩
  · rintro ⟨_, ⟨_, rfl, rfl⟩, _, ⟨w, hw, rfl⟩, rfl⟩
    exact ⟨_, ⟨_, rfl, w, mem_textBody_iff.2 hw, rfl⟩, _, rfl, rfl⟩

theorem mem_text_iff {w : Bytes} :
    w ∈ text ↔ ∃ t, Escaped false t ∧ w = Byte.quote :: (t ++ [Byte.quote]) := by
  rw [text_eq]
  constructor
  · rintro ⟨_, ⟨_, rfl, rfl⟩, _, ⟨t, ht, rfl⟩, rfl⟩
    exact ⟨t, ht, rfl⟩
  · rintro ⟨t, ht, rfl⟩
    exact cons_mem_byte_mul rfl ⟨t, ht, rfl⟩

variable {after : Bool} {b : Byte} {s : Bytes} {n : Nat}

/-- A byte that stays in the body. -/
theorem IsLongest.closing_cons (hb : b ≠ Byte.quote)
    (h : IsLongest (closing (b == Byte.backslash)) s n) :
    IsLongest (closing after) (b :: s) (if n = 0 then 0 else n + 1) where
  length_le x hx hs := by
    cases x with
    | nil => exact Nat.zero_le _
    | cons c u =>
      obtain ⟨rfl, hus⟩ := List.cons_prefix_cons.1 hs
      have hu := ((cons_mem_closing_iff.1 hx).resolve_left fun h => hb h.1).2
      have hle := h.length_le u hu hus
      have hpos : 0 < u.length := by
        apply List.length_pos_iff.2
        intro h0
        rw [h0] at hu
        exact nil_notMem_closing hu
      rw [if_neg (by omega), List.length_cons]
      omega
  attained h0 := by
    have hn : n ≠ 0 := fun hn => h0 (if_pos hn)
    obtain ⟨u, hu, hus, rfl⟩ := h.attained hn
    refine ⟨b :: u, cons_mem_closing_iff.2 (Or.inr ⟨fun h => absurd h hb, hu⟩),
      List.cons_prefix_cons.2 ⟨rfl, hus⟩, ?_⟩
    rw [if_neg hn, List.length_cons]

/-- An escaped quote may close the literal, but a later quote is preferred. -/
theorem IsLongest.closing_escaped_quote (h : IsLongest (closing false) s n) :
    IsLongest (closing true) (Byte.quote :: s) (n + 1) where
  length_le x hx hs := by
    cases x with
    | nil => exact Nat.zero_le _
    | cons c u =>
      obtain ⟨rfl, hus⟩ := List.cons_prefix_cons.1 hs
      rw [List.length_cons]
      rcases cons_mem_closing_iff.1 hx with ⟨_, rfl⟩ | ⟨_, hu⟩
      · simp
      · exact Nat.succ_le_succ (h.length_le u hu hus)
  attained _ := by
    by_cases hn : n = 0
    · exact ⟨[Byte.quote], cons_mem_closing_iff.2 (Or.inl ⟨rfl, rfl⟩), ⟨s, rfl⟩, by simp [hn]⟩
    · obtain ⟨u, hu, hus, rfl⟩ := h.attained hn
      exact ⟨Byte.quote :: u, cons_mem_closing_iff.2 (Or.inr ⟨fun _ => rfl, hu⟩),
        List.cons_prefix_cons.2 ⟨rfl, hus⟩, rfl⟩

/-- A quote that is not escaped closes the literal. -/
theorem isLongest_closing_quote (s : Bytes) : IsLongest (closing false) (Byte.quote :: s) 1 where
  length_le x hx hs := by
    cases x with
    | nil => exact Nat.zero_le _
    | cons c u =>
      obtain ⟨rfl, -⟩ := List.cons_prefix_cons.1 hs
      rcases cons_mem_closing_iff.1 hx with ⟨_, rfl⟩ | ⟨hc, _⟩
      · simp
      · exact absurd (hc rfl) Bool.false_ne_true
  attained _ := ⟨[Byte.quote], cons_mem_closing_iff.2 (Or.inl ⟨rfl, rfl⟩), ⟨s, rfl⟩, rfl⟩

/-! ## The scan -/

section Scan

open Literal.Text

theorem lastClose_stopped (best index : Nat) (s : Bytes) :
    lastClose false false best index s = best := by
  cases s <;> rfl

theorem lastClose_quote (best index : Nat) (s : Bytes) :
    lastClose true false best index (Byte.quote :: s) = index + 1 :=
  lastClose_stopped (index + 1) (index + 1) s

theorem lastClose_escaped_quote (best index : Nat) (s : Bytes) :
    lastClose true true best index (Byte.quote :: s) =
      lastClose true false (index + 1) (index + 1) s := rfl

theorem lastClose_body (hb : b ≠ Byte.quote) (best index : Nat) (s : Bytes) :
    lastClose true after best index (b :: s) =
      lastClose true (b == Byte.backslash) best (index + 1) s := by
  have hne : (b != Byte.quote) = true := bne_iff_ne.2 hb
  simp [lastClose, hb, hne]

/-- The scan ends with the longest rest of a literal, and with the best end found before if
there is none. -/
theorem exists_isLongest_lastClose (after : Bool) (best index : Nat) (s : Bytes) :
    ∃ n, IsLongest (closing after) s n ∧
      lastClose true after best index s = if n = 0 then best else index + n := by
  induction s generalizing after best index with
  | nil => exact ⟨0, isLongest_nil, rfl⟩
  | cons b s ih =>
    by_cases hb : b = Byte.quote
    · subst hb
      cases after with
      | false => exact ⟨1, isLongest_closing_quote s, lastClose_quote best index s⟩
      | true =>
        obtain ⟨n, hn, heq⟩ := ih false (index + 1) (index + 1)
        refine ⟨n + 1, hn.closing_escaped_quote, ?_⟩
        rw [lastClose_escaped_quote, heq]
        split <;> simp <;> omega
    · obtain ⟨n, hn, heq⟩ := ih (b == Byte.backslash) best (index + 1)
      refine ⟨_, hn.closing_cons hb, ?_⟩
      rw [lastClose_body hb, heq]
      split
      · simp
      · simp
        omega

theorem isLongest_text (s : Bytes) : IsLongest text s (Literal.Text.extent s) := by
  rw [text_eq]
  cases s with
  | nil => exact isLongest_nil
  | cons b s =>
    simp only [Literal.Text.extent]
    obtain ⟨n, hn, heq⟩ := exists_isLongest_lastClose false 0 1 s
    split
    · rw [heq]
      split
      · rename_i h0
        exact (h0 ▸ hn).byte_mul_zero nil_notMem_closing
      · exact hn.byte_mul ‹_› (Or.inl ‹_›)
    · exact isLongest_byte_mul_of_notMem ‹_›

end Scan

end Munch.Grammar
