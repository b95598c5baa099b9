import Mathlib.Data.List.Forall2
import Munch.Proofs.WellFormed

/-!
# Code points are the encodings of characters

The table of ranges admits exactly the bytes that encode a character. So a text is well-formed if
and only if it encodes a list of characters. A byte of a code point after its first is never the
first of one, and a text is cut between two characters wherever it is cut in front of a first byte.

## Main definitions

* `Utf8.Form`: the four forms of code points.
* `Utf8.encode`: the text that encodes a list of characters.
-/
namespace Munch.Utf8

/-! ## The forms of code points -/

/-- The byte stands behind a lead byte. -/
def IsTail (b : Byte) : Prop := 0x80 ≤ b ∧ b < 0xC0

/-- A code point has one to four bytes. The first byte says how many, and after four of the first
bytes the range of the second one is narrowed. -/
inductive Form : Bytes → Prop
  | one {a : Byte} (ha : a < 0x80) : Form [a]
  | two {a b : Byte} (ha : 0xC2 ≤ a ∧ a < 0xE0) (hb : IsTail b) : Form [a, b]
  | three {a b c : Byte} (ha : 0xE0 ≤ a ∧ a < 0xF0) (hb : IsTail b) (hc : IsTail c)
      (hlow : a = 0xE0 → 0xA0 ≤ b) (hhigh : a = 0xED → b < 0xA0) : Form [a, b, c]
  | four {a b c d : Byte} (ha : 0xF0 ≤ a ∧ a < 0xF5) (hb : IsTail b) (hc : IsTail c)
      (hd : IsTail d) (hlow : a = 0xF0 → 0x90 ≤ b) (hhigh : a = 0xF4 → b < 0x90) :
      Form [a, b, c, d]

/-- The byte is in a range. -/
def InRange (range : Byte × Byte) (b : Byte) : Prop := range.1 ≤ b ∧ b ≤ range.2

theorem matched_iff_forall₂ {ranges : List (Byte × Byte)} {s : Bytes} :
    matched ranges s = ranges.length ∧ s.length = ranges.length ↔
      List.Forall₂ InRange ranges s := by
  fun_induction matched ranges s with
  | case1 low high ranges b s hb ih => simp [InRange, hb, ← ih]
  | case2 low high ranges b s hb => simp [InRange, hb]
  | case3 ranges s hnot =>
    cases ranges with
    | nil => simp
    | cons range ranges =>
      cases s with
      | nil => simp
      | cons b s => exact (hnot range.1 range.2 ranges b s rfl rfl).elim

theorem isCodePoint_cons_iff {lead : Byte} {s : Bytes} : IsCodePoint (lead :: s) ↔
    ∃ ranges, followers lead = some ranges ∧ List.Forall₂ InRange ranges s := by
  rw [IsCodePoint, codePointLength?_cons_eq_some]
  refine exists_congr fun ranges => and_congr_right fun _ => ?_
  rw [← matched_iff_forall₂, List.length_cons, Nat.add_right_cancel_iff]

section Followers

variable {lead : Byte}

theorem followers_one (h : lead < 0x80) : followers lead = some [] := by
  grind [followers]

theorem followers_two (h : 0xC2 ≤ lead) (h' : lead < 0xE0) :
    followers lead = some [(0x80, 0xBF)] := by
  grind [followers]

theorem followers_three (h : 0xE0 ≤ lead) (h' : lead < 0xF0) : followers lead =
    some [(if lead = 0xE0 then 0xA0 else 0x80, if lead = 0xED then 0x9F else 0xBF),
      (0x80, 0xBF)] := by
  grind [followers]

theorem followers_four (h : 0xF0 ≤ lead) (h' : lead < 0xF5) : followers lead =
    some [(if lead = 0xF0 then 0x90 else 0x80, if lead = 0xF4 then 0x8F else 0xBF),
      (0x80, 0xBF), (0x80, 0xBF)] := by
  grind [followers]

/-- A byte that begins a code point is in one of the four rows of the table. -/
theorem lead_cases {ranges : List (Byte × Byte)} (h : followers lead = some ranges) :
    lead < 0x80 ∨ (0xC2 ≤ lead ∧ lead < 0xE0) ∨ (0xE0 ≤ lead ∧ lead < 0xF0) ∨
      (0xF0 ≤ lead ∧ lead < 0xF5) := by
  grind [followers]

end Followers

theorem isCodePoint_iff_form {s : Bytes} : IsCodePoint s ↔ Form s := by
  constructor
  · intro h
    cases s with
    | nil => cases h
    | cons lead s =>
      obtain ⟨ranges, hranges, hall⟩ := isCodePoint_cons_iff.1 h
      rcases lead_cases hranges with ha | ha | ha | ha
      · obtain rfl := Option.some.inj ((followers_one ha).symm.trans hranges)
        obtain rfl := List.forall₂_nil_left_iff.1 hall
        exact .one ha
      · obtain rfl := Option.some.inj ((followers_two ha.1 ha.2).symm.trans hranges)
        simp only [List.forall₂_cons_left_iff, List.forall₂_nil_left_iff] at hall
        obtain ⟨b, _, hb, rfl, rfl⟩ := hall
        exact .two ha (by grind [InRange, IsTail])
      · obtain rfl := Option.some.inj ((followers_three ha.1 ha.2).symm.trans hranges)
        simp only [List.forall₂_cons_left_iff, List.forall₂_nil_left_iff] at hall
        obtain ⟨b, _, hb, ⟨c, _, hc, rfl, rfl⟩, rfl⟩ := hall
        apply Form.three ha <;> grind [InRange, IsTail]
      · obtain rfl := Option.some.inj ((followers_four ha.1 ha.2).symm.trans hranges)
        simp only [List.forall₂_cons_left_iff, List.forall₂_nil_left_iff] at hall
        obtain ⟨b, _, hb, ⟨c, _, hc, ⟨d, _, hd, rfl, rfl⟩, rfl⟩, rfl⟩ := hall
        apply Form.four ha <;> grind [InRange, IsTail]
  · intro h
    cases h with
    | one ha => exact isCodePoint_cons_iff.2 ⟨_, followers_one ha, .nil⟩
    | two ha hb =>
      refine isCodePoint_cons_iff.2 ⟨_, followers_two ha.1 ha.2, .cons ?_ .nil⟩
      grind [InRange, IsTail]
    | three ha hb hc hlow hhigh =>
      refine isCodePoint_cons_iff.2 ⟨_, followers_three ha.1 ha.2, .cons ?_ (.cons ?_ .nil)⟩ <;>
        grind [InRange, IsTail]
    | four ha hb hc hd hlow hhigh =>
      refine isCodePoint_cons_iff.2
        ⟨_, followers_four ha.1 ha.2, .cons ?_ (.cons ?_ (.cons ?_ .nil))⟩ <;>
        grind [InRange, IsTail]

/-! ## Characters -/

theorem isCodePoint_encode (c : Char) : IsCodePoint (String.utf8EncodeChar c) := by
  rw [isCodePoint_iff_form, String.utf8EncodeChar]
  have hvalid : c.val.toNat.isValidChar := c.valid
  rw [Nat.isValidChar] at hvalid
  have hlead {n : Nat} (h : n < 256) : (UInt8.ofNat n).toNat = n := UInt8.toNat_ofNat_of_lt' h
  generalize c.val.toNat = v at *
  have htail (n : Nat) : IsTail (UInt8.ofNat (n % 64 + 128)) := by
    simp only [IsTail, UInt8.le_iff_toNat_le, UInt8.lt_iff_toNat_lt]
    rw [hlead (by omega)]
    simp; omega
  split_ifs with h1 h2 h3
  · apply Form.one
    rw [UInt8.lt_iff_toNat_lt, hlead (by omega)]
    simp; omega
  · apply Form.two _ (htail _)
    simp only [UInt8.le_iff_toNat_le, UInt8.lt_iff_toNat_lt]
    rw [hlead (by omega)]
    simp; omega
  · apply Form.three _ (htail _) (htail _)
    all_goals simp only [UInt8.le_iff_toNat_le, UInt8.lt_iff_toNat_lt, ← UInt8.toNat_inj]
    all_goals rw [hlead (by omega)]
    all_goals simp
    all_goals omega
  · apply Form.four _ (htail _) (htail _) (htail _)
    all_goals simp only [UInt8.le_iff_toNat_le, UInt8.lt_iff_toNat_lt, ← UInt8.toNat_inj]
    all_goals rw [hlead (by omega)]
    all_goals simp
    all_goals omega

theorem exists_char_of_isValid {v : Nat} (h : v.isValidChar) : ∃ c : Char, c.val.toNat = v := by
  refine ⟨Char.ofNat v, ?_⟩
  rw [Char.ofNat, dif_pos h]
  rfl

theorem eq_ofNat {b : Byte} {n : Nat} (h : b.toNat = n) : UInt8.ofNat n = b := by
  rw [← h, UInt8.ofNat_toNat]

/-- A code point writes the number of a character. -/
theorem exists_char_of_isCodePoint {s : Bytes} (h : IsCodePoint s) :
    ∃ c : Char, String.utf8EncodeChar c = s := by
  suffices ∃ v : Nat, v.isValidChar ∧ ∀ c : Char, c.val.toNat = v → String.utf8EncodeChar c = s by
    obtain ⟨v, hv, hencode⟩ := this
    obtain ⟨c, hc⟩ := exists_char_of_isValid hv
    exact ⟨c, hencode c hc⟩
  rw [isCodePoint_iff_form] at h
  cases h with
  | @one a ha =>
    replace ha : a.toNat < 0x80 := ha
    refine ⟨a.toNat, by rw [Nat.isValidChar]; omega, fun c hc => ?_⟩
    rw [String.utf8EncodeChar, hc, if_pos (by omega), eq_ofNat rfl]
  | @two a b ha hb =>
    replace ha : 0xC2 ≤ a.toNat ∧ a.toNat < 0xE0 := ha
    replace hb : 0x80 ≤ b.toNat ∧ b.toNat < 0xC0 := hb
    refine ⟨(a.toNat - 0xC0) * 64 + (b.toNat - 0x80), by rw [Nat.isValidChar]; omega,
      fun c hc => ?_⟩
    rw [String.utf8EncodeChar, hc, if_neg (by omega), if_pos (by omega), List.cons_eq_cons,
      List.cons_eq_cons]
    exact ⟨eq_ofNat (by omega), eq_ofNat (by omega), rfl⟩
  | @three a b c ha hb hc hlow hhigh =>
    replace ha : 0xE0 ≤ a.toNat ∧ a.toNat < 0xF0 := ha
    replace hb : 0x80 ≤ b.toNat ∧ b.toNat < 0xC0 := hb
    replace hc : 0x80 ≤ c.toNat ∧ c.toNat < 0xC0 := hc
    replace hlow : a.toNat = 0xE0 → 0xA0 ≤ b.toNat := fun h => hlow (UInt8.toNat_inj.1 h)
    replace hhigh : a.toNat = 0xED → b.toNat < 0xA0 := fun h => hhigh (UInt8.toNat_inj.1 h)
    refine ⟨(a.toNat - 0xE0) * 4096 + (b.toNat - 0x80) * 64 + (c.toNat - 0x80),
      by rw [Nat.isValidChar]; omega, fun x hx => ?_⟩
    rw [String.utf8EncodeChar, hx, if_neg (by omega), if_neg (by omega), if_pos (by omega),
      List.cons_eq_cons, List.cons_eq_cons, List.cons_eq_cons]
    exact ⟨eq_ofNat (by omega), eq_ofNat (by omega), eq_ofNat (by omega), rfl⟩
  | @four a b c d ha hb hc hd hlow hhigh =>
    replace ha : 0xF0 ≤ a.toNat ∧ a.toNat < 0xF5 := ha
    replace hb : 0x80 ≤ b.toNat ∧ b.toNat < 0xC0 := hb
    replace hc : 0x80 ≤ c.toNat ∧ c.toNat < 0xC0 := hc
    replace hd : 0x80 ≤ d.toNat ∧ d.toNat < 0xC0 := hd
    replace hlow : a.toNat = 0xF0 → 0x90 ≤ b.toNat := fun h => hlow (UInt8.toNat_inj.1 h)
    replace hhigh : a.toNat = 0xF4 → b.toNat < 0x90 := fun h => hhigh (UInt8.toNat_inj.1 h)
    refine ⟨(a.toNat - 0xF0) * 262144 + (b.toNat - 0x80) * 4096 + (c.toNat - 0x80) * 64 +
      (d.toNat - 0x80), by rw [Nat.isValidChar]; omega, fun x hx => ?_⟩
    rw [String.utf8EncodeChar, hx, if_neg (by omega), if_neg (by omega), if_neg (by omega),
      List.cons_eq_cons, List.cons_eq_cons, List.cons_eq_cons, List.cons_eq_cons]
    exact ⟨eq_ofNat (by omega), eq_ofNat (by omega), eq_ofNat (by omega), eq_ofNat (by omega), rfl⟩

/-- A code point at the head of a text is a character there. -/
theorem codePointLength?_eq_some_iff {s : Bytes} {n : Nat} : codePointLength? s = some n ↔
    ∃ c, String.utf8EncodeChar c <+: s ∧ n = (String.utf8EncodeChar c).length := by
  constructor
  · intro h
    obtain ⟨c, hc⟩ := exists_char_of_isCodePoint (isCodePoint_take h)
    refine ⟨c, ?_, ?_⟩
    · rw [hc]
      exact List.take_prefix n s
    · rw [hc, List.length_take_of_le (codePointLength?_le h)]
  · rintro ⟨c, ⟨rest, rfl⟩, rfl⟩
    exact codePointLength?_append (isCodePoint_encode c) rest

theorem codePointLength?_eq_none_iff {s : Bytes} :
    codePointLength? s = none ↔ ∀ c, ¬ String.utf8EncodeChar c <+: s := by
  rw [Option.eq_none_iff_forall_ne_some]
  constructor
  · intro h c hc
    exact h _ (codePointLength?_eq_some_iff.2 ⟨c, hc, rfl⟩)
  · intro h n hn
    obtain ⟨c, hc, -⟩ := codePointLength?_eq_some_iff.1 hn
    exact h c hc

/-- A character with a byte below 0x80 is this byte. -/
theorem encodeChar_of_ascii_mem {c : Char} {b : Byte} (hb : b ∈ String.utf8EncodeChar c)
    (hascii : b < 0x80) : String.utf8EncodeChar c = [b] ∧ c.toNat = b.toNat := by
  have hpoint := (isCodePoint_encode c).eq_of_ascii_mem hb hascii
  refine ⟨hpoint, ?_⟩
  have hascii : b.toNat < 0x80 := hascii
  rw [String.utf8EncodeChar] at hpoint
  split_ifs at hpoint with hsmall
  · have hvalue := congrArg UInt8.toNat (List.cons.inj hpoint).1
    rw [UInt8.toNat_ofNat_of_lt' (Nat.lt_of_le_of_lt hsmall (by decide))] at hvalue
    exact hvalue
  all_goals simp at hpoint

/-- A character is known by the one byte below 0x80 with which a text begins. -/
theorem toNat_of_encodeChar_append {c : Char} {b : Byte} {s t : Bytes} (hb : b < 0x80)
    (h : String.utf8EncodeChar c ++ s = b :: t) : c.toNat = b.toNat := by
  obtain ⟨lead, tail, hsplit⟩ := List.exists_cons_of_ne_nil (isCodePoint_encode c).ne_nil
  rw [hsplit] at h
  obtain ⟨rfl, -⟩ := List.cons.inj h
  exact (encodeChar_of_ascii_mem (by simp [hsplit]) hb).2

/-- No character is a proper beginning of another one. -/
theorem encodeChar_append_inj {c d : Char} {s t : Bytes}
    (h : String.utf8EncodeChar c ++ s = String.utf8EncodeChar d ++ t) :
    String.utf8EncodeChar c = String.utf8EncodeChar d ∧ s = t := by
  refine List.append_inj h (Option.some.inj ?_)
  rw [← codePointLength?_append (isCodePoint_encode c) s, h]
  exact codePointLength?_append (isCodePoint_encode d) t

/-! ## Fragments -/

theorem fragment_of_char {c : Char} {s : Bytes} (h : String.utf8EncodeChar c <+: s) :
    fragment s = String.utf8EncodeChar c := by
  rw [fragment, codePointLength?_eq_some_iff.2 ⟨c, h, rfl⟩]
  exact (List.prefix_iff_eq_take.1 h).symm

theorem fragment_of_none {s : Bytes} (h : codePointLength? s = none) :
    fragment s = s.take 1 := by
  rw [fragment, h]
  rfl

theorem fragment_prefix (s : Bytes) : fragment s <+: s := List.take_prefix _ s

theorem fragment_ne_nil {s : Bytes} (h : s ≠ []) : fragment s ≠ [] := by
  rw [fragment]
  cases hlength : codePointLength? s with
  | none => simp [h]
  | some n => simp [h, Nat.ne_of_gt (codePointLength?_pos hlength)]

/-! ## Lists of characters -/

/-- The text that encodes a list of characters. -/
def encode (cs : List Char) : Bytes := cs.flatMap String.utf8EncodeChar

@[simp] theorem encode_nil : encode [] = [] := rfl

@[simp] theorem encode_cons (c : Char) (cs : List Char) :
    encode (c :: cs) = String.utf8EncodeChar c ++ encode cs := rfl

@[simp] theorem encode_append (cs ds : List Char) : encode (cs ++ ds) = encode cs ++ encode ds :=
  List.flatMap_append

theorem wellFormed_encode (cs : List Char) : WellFormed (encode cs) := by
  induction cs with
  | nil => exact .nil
  | cons c cs ih => exact .cons (isCodePoint_encode c) ih

/-- The texts that encode characters are the rows of code points. -/
theorem isText_iff_wellFormed {s : Bytes} : IsText s ↔ WellFormed s := by
  constructor
  · rintro ⟨cs, rfl⟩
    exact wellFormed_encode cs
  · intro h
    induction h with
    | nil => exact ⟨[], rfl⟩
    | cons hpoint _ ih =>
      obtain ⟨c, rfl⟩ := exists_char_of_isCodePoint hpoint
      obtain ⟨cs, rfl⟩ := ih
      exact ⟨c :: cs, rfl⟩

/-! ## Cutting between characters -/

theorem not_isTail_of_ascii {b : Byte} (h : b < 0x80) : ¬ IsTail b :=
  fun htail => UInt8.not_le.2 h htail.1

/-- The first byte of a code point and no other begins one. -/
theorem IsCodePoint.tails {lead : Byte} {s : Bytes} (h : IsCodePoint (lead :: s)) :
    ¬ IsTail lead ∧ ∀ b ∈ s, IsTail b := by
  generalize hpoint : lead :: s = point at h
  rw [isCodePoint_iff_form] at h
  cases h with
  | one ha =>
    cases hpoint
    exact ⟨not_isTail_of_ascii ha, by simp⟩
  | two ha hb =>
    cases hpoint
    exact ⟨by grind [IsTail], by simpa using hb⟩
  | three ha hb hc =>
    cases hpoint
    exact ⟨by grind [IsTail], by simpa using ⟨hb, hc⟩⟩
  | four ha hb hc hd =>
    cases hpoint
    exact ⟨by grind [IsTail], by simpa using ⟨hb, hc, hd⟩⟩

/-- One byte is well-formed by itself only below 0x80. -/
theorem WellFormed.ascii_of_singleton {b : Byte} (h : WellFormed [b]) : b < 0x80 := by
  generalize ht : [b] = t at h
  cases h with
  | nil => cases ht
  | @cons point rest hpoint _ =>
    obtain ⟨lead, tail, rfl⟩ := List.exists_cons_of_ne_nil hpoint.ne_nil
    obtain ⟨rfl, htail⟩ := List.cons.inj ht
    obtain ⟨rfl, -⟩ := List.append_eq_nil_iff.1 htail.symm
    rw [isCodePoint_iff_form] at hpoint
    cases hpoint with
    | one ha => exact ha

theorem WellFormed.not_isTail_head {b : Byte} {s : Bytes} (h : WellFormed (b :: s)) :
    ¬ IsTail b := by
  generalize ht : b :: s = t at h
  cases h with
  | nil => cases ht
  | @cons point rest hpoint _ =>
    obtain ⟨lead, tail, rfl⟩ := List.exists_cons_of_ne_nil hpoint.ne_nil
    obtain ⟨rfl, -⟩ := List.cons.inj ht
    exact hpoint.tails.1

/-- A text is cut between two characters wherever what follows is well-formed. -/
theorem exists_cut {cs : List Char} {s t : Bytes} (h : encode cs = s ++ t) (ht : WellFormed t) :
    ∃ before after, cs = before ++ after ∧ encode before = s ∧ encode after = t := by
  induction cs generalizing s with
  | nil =>
    obtain ⟨rfl, rfl⟩ := List.append_eq_nil_iff.1 h.symm
    exact ⟨[], [], rfl, rfl, rfl⟩
  | cons c cs ih =>
    rw [encode_cons] at h
    rcases List.append_eq_append_iff.1 h with ⟨u, rfl, hu⟩ | ⟨u, hu, rfl⟩
    · obtain ⟨before, after, rfl, rfl, rfl⟩ := ih hu
      exact ⟨c :: before, after, rfl, rfl, rfl⟩
    · -- The cut is in the encoding of one character, so it is at its beginning or at its end.
      cases s with
      | nil => exact ⟨[], c :: cs, rfl, rfl, by rw [encode_cons, hu, List.nil_append]⟩
      | cons lead s =>
        cases u with
        | nil => exact ⟨[c], cs, rfl, by simpa using hu, rfl⟩
        | cons b u =>
          have hpoint := isCodePoint_encode c
          rw [hu, List.cons_append] at hpoint
          exact absurd (hpoint.tails.2 b (by simp)) ht.not_isTail_head

end Munch.Utf8
