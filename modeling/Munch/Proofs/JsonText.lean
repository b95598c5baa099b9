import Munch.Proofs.DoubleText
import Munch.Proofs.JsonGrammar

/-!
# Printed JSON denotes what was printed

What is printed for a value is a JSON text, in every style and at every depth, and the text denotes
the value. Texts have to be well-formed and doubles finite for that: otherwise a replacement or
`null` is printed.

## Main definitions

* `Json.IsSound`: all texts of a value are well-formed and all doubles are finite.
* `Json.value`: what the printed value denotes, given the digits of doubles.
-/
namespace Munch.Json

open Utf8 (WellFormed IsCodePoint)

/-! ## Strings -/

theorem escape_append {point : Bytes} (h : IsCodePoint point) (s : Bytes) : escape (point ++ s) =
    (if point.length = 1 then point.flatMap escapeAscii else point) ++ escape s := by
  have hpiece : piece (point ++ s) =
      (point.length, if point.length = 1 then point.flatMap escapeAscii else point) := by
    rw [piece, Utf8.codePointLength?_append h]
    by_cases hone : point.length = 1
    · have htake : (point ++ s).take 1 = point := by rw [← hone, List.take_left]
      simp [hone, htake]
    · simp [hone]
  have hne : point ++ s ≠ [] := by simp [h.ne_nil]
  rw [escape, if_neg hne, hpiece]
  simp

/-- Bytes that need no escape are printed as they are. -/
theorem escape_of_plain {s : Bytes}
    (h : ∀ b ∈ s, 0x20 ≤ b ∧ b < 0x80 ∧ b ≠ 0x22 ∧ b ≠ 0x5C) : escape s = s := by
  induction s with
  | nil => rw [escape, if_pos rfl]
  | cons b s ih =>
    obtain ⟨⟨hcontrol, hascii, hquote, hbackslash⟩, hs⟩ := List.forall_mem_cons.1 h
    have hb : escapeAscii b = [b] := by
      unfold escapeAscii
      grind
    have happend := escape_append (Utf8.isCodePoint_ascii hascii) s
    rw [List.singleton_append] at happend
    simp [happend, hb, ih hs]

/-- Controls are written by their number. -/
theorem isHex_of_control {b : Byte} (h : b < 0x20) :
    IsHex b.toNat ([0x30, 0x30] ++ Bytes.hex b) := by
  refine Byte.of_forall_fin (p := fun b => IsHex b.toNat ([0x30, 0x30] ++ Bytes.hex b)) ?_ h
  unfold IsHex
  decide +kernel

variable {s cs t rest : Bytes}

/-- An ASCII byte denotes itself, escaped or not. -/
theorem Characters.escapeAscii {b : Byte} (hb : b < 0x80) (h : Characters cs t rest) :
    Characters (b :: cs) (escapeAscii b ++ t) rest := by
  obtain ⟨c, hc⟩ := Utf8.exists_char_of_isCodePoint (Utf8.isCodePoint_ascii hb)
  have hvalue := (Utf8.encodeChar_of_ascii_mem (by rw [hc]; simp) hb).2
  have hcons : b :: cs = String.utf8EncodeChar c ++ cs := by rw [hc]; rfl
  have letter {code : Byte} (hmem : (code, b) ∈ escapes) :
      Characters (b :: cs) ([Byte.backslash, code] ++ t) rest := .letter rfl hmem h
  unfold Json.escapeAscii
  split_ifs with h1 h2 h3 h4 h5 h6 h7 h8
  · exact letter (h1 ▸ by decide)
  · exact letter (h2 ▸ by decide)
  · exact letter (h3 ▸ by decide)
  · exact letter (h4 ▸ by decide)
  · exact letter (h5 ▸ by decide)
  · exact letter (h6 ▸ by decide)
  · exact letter (h7 ▸ by decide)
  · rw [hcons]
    exact .number rfl (hvalue ▸ isHex_of_control h8) h
  · rw [hcons]
    refine .plain (by rw [hc]) ?_ ?_ ?_ h
    · rw [hvalue]
      exact UInt8.not_lt.1 h8
    · rintro rfl
      exact h1 (UInt8.toNat_inj.1 hvalue.symm)
    · rintro rfl
      exact h2 (UInt8.toNat_inj.1 hvalue.symm)

theorem Characters.escape (h : WellFormed s) (rest : Bytes) :
    Characters s (escape s ++ Byte.quote :: rest) rest := by
  induction h with
  | nil =>
    rw [Json.escape, if_pos rfl]
    exact .close rfl
  | @cons point s hpoint _ ih =>
    rw [escape_append hpoint, List.append_assoc]
    obtain ⟨c, rfl⟩ := Utf8.exists_char_of_isCodePoint hpoint
    split_ifs with hlength
    · obtain ⟨b, hb⟩ := List.length_eq_one_iff.1 hlength
      rw [hb] at hpoint ⊢
      rw [List.flatMap_singleton]
      exact ih.escapeAscii (by simpa using (WellFormed.cons hpoint .nil).ascii_of_singleton)
    · have hnot {d : Char} (hd : (String.utf8EncodeChar d).length = 1) : c ≠ d := by
        rintro rfl
        exact hlength hd
      refine .plain rfl ?_ (hnot rfl) (hnot rfl) ih
      by_contra hcontrol
      apply hlength
      rw [String.length_utf8EncodeChar, Char.utf8Size_eq_one_iff, UInt32.le_iff_toNat_le]
      exact Nat.le_trans (Nat.le_of_not_le hcontrol) (by decide)

theorem reads_quoted (h : WellFormed s) (rest : Bytes) :
    Reads (.value (.text s)) (quoted s ++ rest) rest := by
  have hcs := Characters.escape h rest
  refine .text (t := escape s ++ Byte.quote :: rest) ?_ hcs
  rw [quoted, List.cons_append, List.append_assoc, skip_cons_of_not_blank (by decide)]
  rfl

/-! ## Numbers -/

section Numerals

open Bytes (IsDigits)
open Literal.Double (Parts)

theorem mem_wholeNumeral (hs : IsDigits s) (hne : s ≠ [])
    (hzero : s.head? = some 0x30 → s = [0x30]) : s ∈ wholeNumeral := by
  obtain ⟨b, t, rfl⟩ := List.exists_cons_of_ne_nil hne
  have hdigit {c : Byte} (hc : c ∈ b :: t) : c ∈ Grammar.digit := Grammar.isDigit_iff.1 (hs c hc)
  by_cases hb : b = 0x30
  · rw [hzero (by simp [hb])]
    exact Or.inl rfl
  · refine Or.inr ⟨[b], ⟨b, ?_, rfl⟩, t, ?_, rfl⟩
    · have hmem := hdigit (c := b) (by simp)
      simp [Grammar.digit] at hmem ⊢
      grind
    · exact Grammar.mem_star_byte.2 fun c hc => hdigit (by simp [hc])

theorem decimal_mem_wholeNumeral (n : Nat) : Bytes.decimal n ∈ wholeNumeral := by
  refine mem_wholeNumeral (Bytes.isDigits_decimal n) (Bytes.decimal_ne_nil n) fun h => ?_
  by_cases hn : n = 0
  · subst hn
    rw [Bytes.decimal, if_pos (by decide)]
    rfl
  · exact absurd h (Bytes.head_decimal hn)

/-- Only one zero is written before the point. -/
theorem lead_decimal {style : DecimalStyle} (hstyle : style.IsPointed) (x : Decimal) :
    (∃ t, style.decimal x = 0x30 :: 0x2E :: t) ∨ (style.decimal x).head? ≠ some 0x30 := by
  unfold DecimalStyle.decimal
  dsimp only
  split
  · exact Or.inl ⟨_, by rw [hstyle]; rfl⟩
  · rename_i hx
    have hhead := Bytes.head_decimal hx
    obtain ⟨b, digits, hdigits⟩ := List.exists_cons_of_ne_nil (Bytes.decimal_ne_nil x.digits)
    rw [hdigits] at hhead ⊢
    split
    · unfold DecimalStyle.positional
      split
      · exact Or.inr (by simpa using hhead)
      · exact Or.inl ⟨_, rfl⟩
    · exact Or.inr (by simpa [DecimalStyle.scientific] using hhead)

theorem decimalText_mem {style : DecimalStyle} (hstyle : style.IsPointed) (x : Decimal) :
    style.decimal x ∈ wholeNumeral * Grammar.optional Grammar.fraction *
      Grammar.optional Grammar.exponent := by
  obtain ⟨p, hp, -, -⟩ := DecimalStyle.exists_writes_decimal hstyle x
  obtain ⟨power, hpower, htext⟩ := hp.text
  have hwhole : p.whole ∈ wholeNumeral := by
    refine mem_wholeNumeral hp.whole hp.whole_ne fun hzero => ?_
    obtain ⟨digits, hdigits⟩ : ∃ digits, p.whole = 0x30 :: digits := List.head?_eq_some_iff.1 hzero
    rw [hdigits, List.cons_append] at htext
    rcases lead_decimal hstyle x with ⟨t, ht⟩ | hlead
    · cases digits with
      | nil => exact hdigits
      | cons b digits =>
        have hb := hp.whole b (by simp [hdigits])
        have hpoint := htext.symm.trans ht
        simp only [List.cons_append, List.cons.injEq, true_and] at hpoint
        rw [hpoint.1] at hb
        cases hb
    · exact absurd (by rw [htext]; rfl) hlead
  rw [htext, ← List.append_assoc]
  refine ⟨_, ⟨p.whole, hwhole, _, ?_, rfl⟩, power, hpower.mem, rfl⟩
  exact Parts.fractionText_mem hp.fraction

theorem decimal_mem_numeral (n : Nat) : Bytes.decimal n ∈ numeral := by
  refine ⟨[], Or.inl rfl, _, ?_, rfl⟩
  refine ⟨_, ⟨_, decimal_mem_wholeNumeral n, [], Or.inl rfl, rfl⟩, [], Or.inl rfl, ?_⟩
  simp

theorem finiteText_mem_numeral (digits : Nat → Decimal) (d : Binary64) :
    d.finiteText digits .json ∈ numeral := by
  refine ⟨d.sign, ?_, _, decimalText_mem DecimalStyle.isPointed_json _, rfl⟩
  unfold Binary64.sign
  split
  · exact Or.inr rfl
  · exact Or.inl rfl

theorem reads_numeral (hs : s ∈ numeral) (hrest : EndsNumber rest) :
    Reads (.value (.number s)) (s ++ rest) rest := by
  obtain ⟨b, t, rfl⟩ := List.exists_cons_of_ne_nil (ne_nil_of_mem_numeral hs)
  have hb : isNumberPart b = true := over_numeral _ hs b (by simp)
  have hblank : isBlank b = false := by
    by_contra h
    simp only [isBlank, Bool.not_eq_false, Bool.or_eq_true, beq_iff_eq] at h
    rcases h with ((rfl | rfl) | rfl) | rfl <;> cases hb
  exact .number (skip_cons_of_not_blank hblank _) hs hrest

end Numerals

/-! ## Values -/

section Value

variable (digits : Nat → Decimal)

mutual

/-- What the printed value denotes, given the digits of doubles. -/
def value : Json → Value
  | natural n => .number (Bytes.decimal n)
  | double d => .number (d.finiteText digits .json)
  | text s => .text s
  | array items => .array (itemValues items)
  | object fields => .object (fieldValues fields)

def itemValues : List Json → List Value
  | [] => []
  | item :: items => value item :: itemValues items

def fieldValues : List (String × Json) → List (Bytes × Value)
  | [] => []
  | (key, j) :: fields => (.ascii key, value j) :: fieldValues fields

end

end Value

/-- All texts of the value are well-formed and all its doubles are finite. -/
inductive IsSound : Json → Prop
  | natural (n : Nat) : IsSound (.natural n)
  | double {d : Binary64} (h : d.isFinite = true) : IsSound (.double d)
  | text {s : Bytes} (h : WellFormed s) : IsSound (.text s)
  | array {items : List Json} (h : ∀ item ∈ items, IsSound item) : IsSound (.array items)
  | object {fields : List (String × Json)} (hkeys : ∀ f ∈ fields, WellFormed (.ascii f.1))
      (h : ∀ f ∈ fields, IsSound f.2) : IsSound (.object fields)

/-- White space before a part does not matter. -/
theorem Reads.of_skip_eq {p : Part} {s' : Bytes} (h : Reads p s rest) (hs : skip s' = skip s) :
    Reads p s' rest := by
  induction h generalizing s' with
  | word hword h => exact .word hword (hs.trans h)
  | number h hlexeme hrest => exact .number (hs.trans h) hlexeme hrest
  | text h hcs => exact .text (hs.trans h) hcs
  | array h hvs => exact .array (hs.trans h) hvs
  | object h hfs => exact .object (hs.trans h) hfs
  | noElements h => exact .noElements (hs.trans h)
  | elements _ hvs ihv => exact .elements (ihv hs) hvs
  | noItems h => exact .noItems (hs.trans h)
  | items h hv hvs => exact .items (hs.trans h) hv hvs
  | member h hkey hcolon hv => exact .member (hs.trans h) hkey hcolon hv
  | noMembers h => exact .noMembers (hs.trans h)
  | members _ hfs ihf => exact .members (ihf hs) hfs
  | noFields h => exact .noFields (hs.trans h)
  | fields h hf hfs => exact .fields (hs.trans h) hf hfs

theorem isBlank_of_mem_lineBreak {style : Style} {depth : Nat} :
    ∀ b ∈ style.lineBreak depth, isBlank b = true := by
  cases style with
  | compact => simp [Style.lineBreak]
  | indented width =>
    simp only [Style.lineBreak, List.mem_cons, List.mem_replicate]
    rintro b (rfl | ⟨-, rfl⟩) <;> rfl

theorem Reads.lineBreak {p : Part} (h : Reads p s rest) (style : Style) (depth : Nat) :
    Reads p (style.lineBreak depth ++ s) rest :=
  h.of_skip_eq (skip_append isBlank_of_mem_lineBreak s)

theorem skip_lineBreak_cons {style : Style} {depth : Nat} {b : Byte} (hb : isBlank b = false) :
    skip (style.lineBreak depth ++ b :: s) = b :: s := by
  rw [skip_append isBlank_of_mem_lineBreak, skip_cons_of_not_blank hb]

/-- What stands between a key and its value begins with the colon. -/
theorem reads_member {style : Style} {key : String} {v : Value} (hkey : WellFormed (.ascii key))
    (hv : Reads (.value v) s rest) :
    Reads (.member (.ascii key, v)) (quoted (.ascii key) ++ (style.colon ++ s)) rest := by
  have hcs := Characters.escape hkey (style.colon ++ s)
  have hquoted : skip (quoted (.ascii key) ++ (style.colon ++ s)) =
      Byte.quote :: (Json.escape (.ascii key) ++ Byte.quote :: (style.colon ++ s)) := by
    rw [quoted, List.cons_append, List.append_assoc, skip_cons_of_not_blank (by decide)]
    rfl
  cases style with
  | compact => exact .member hquoted hcs (skip_cons_of_not_blank (by decide) _) hv
  | indented width =>
    refine .member hquoted hcs (skip_cons_of_not_blank (by decide) (0x20 :: s)) ?_
    exact hv.of_skip_eq (by simp [skip, isBlank])

theorem endsNumber_lineBreak {style : Style} {depth : Nat} {b : Byte}
    (hb : isNumberPart b = false) : EndsNumber (style.lineBreak depth ++ b :: s) := by
  cases style with
  | compact => exact endsNumber_cons hb s
  | indented width => exact endsNumber_cons (by decide) _

section Print

variable (digits : Nat → Decimal) (style : Style)

theorem endsNumber_printItems (depth : Nat) (items : List Json) (rest : Bytes) :
    EndsNumber (printItems digits style depth items ++ rest) := by
  cases items with
  | nil =>
    rw [printItems, List.append_assoc]
    exact endsNumber_lineBreak (by decide)
  | cons item items =>
    simp only [printItems, List.append_assoc]
    exact endsNumber_cons (by decide) _

theorem endsNumber_printFields (depth : Nat) (fields : List (String × Json))
    (rest : Bytes) : EndsNumber (printFields digits style depth fields ++ rest) := by
  cases fields with
  | nil =>
    rw [printFields, List.append_assoc]
    exact endsNumber_lineBreak (by decide)
  | cons field fields =>
    simp only [printFields, List.append_assoc]
    exact endsNumber_cons (by decide) _

mutual

/-- What is printed for a value is read as this value. Only a number could go on behind its end, and
what follows it in an array or an object, a separator, a bracket or a new line, does not let it. -/
theorem reads_printAt : ∀ (depth : Nat) (j : Json) (rest : Bytes), IsSound j →
    EndsNumber rest → Reads (.value (value digits j)) (printAt digits style depth j ++ rest) rest
  | depth, natural n, rest, _, hrest => by
    rw [printAt]
    exact reads_numeral (decimal_mem_numeral n) hrest
  | depth, double d, rest, .double hfinite, hrest => by
    rw [printAt, number, if_pos hfinite]
    exact reads_numeral (finiteText_mem_numeral digits d) hrest
  | depth, text s, rest, .text hs, _ => by
    rw [printAt]
    exact reads_quoted hs rest
  | depth, array [], rest, _, _ => by
    rw [printAt]
    exact .array (skip_cons_of_not_blank (by decide) _)
      (.noElements (skip_cons_of_not_blank (by decide) rest))
  | depth, array (item :: items), rest, .array h, _ => by
    obtain ⟨hitem, hitems⟩ := List.forall_mem_cons.1 h
    have hv := reads_printAt (depth + 1) item _ hitem
      (endsNumber_printItems digits style depth items rest)
    have hvs := reads_printItems depth items rest hitems
    simp only [printAt, List.append_assoc]
    exact .array (skip_cons_of_not_blank (by decide) _)
      (.elements (hv.lineBreak style (depth + 1)) hvs)
  | depth, object [], rest, _, _ => by
    rw [printAt]
    exact .object (skip_cons_of_not_blank (by decide) _)
      (.noMembers (skip_cons_of_not_blank (by decide) rest))
  | depth, object ((key, j) :: fields), rest, .object hkeys h, _ => by
    obtain ⟨hkey, hkeys⟩ := List.forall_mem_cons.1 hkeys
    obtain ⟨hj, hfields⟩ := List.forall_mem_cons.1 h
    have hv := reads_printAt (depth + 1) j _ hj
      (endsNumber_printFields digits style depth fields rest)
    have hfs := reads_printFields depth fields rest hkeys hfields
    simp only [printAt, List.append_assoc]
    exact .object (skip_cons_of_not_blank (by decide) _)
      (.members ((reads_member hkey hv).lineBreak style (depth + 1)) hfs)

theorem reads_printItems : ∀ (depth : Nat) (items : List Json) (rest : Bytes),
    (∀ item ∈ items, IsSound item) →
    Reads (.items (itemValues digits items)) (printItems digits style depth items ++ rest) rest
  | depth, [], rest, _ => by
    rw [printItems, List.append_assoc]
    exact .noItems (skip_lineBreak_cons (by decide))
  | depth, item :: items, rest, h => by
    obtain ⟨hitem, hitems⟩ := List.forall_mem_cons.1 h
    have hv := reads_printAt (depth + 1) item _ hitem
      (endsNumber_printItems digits style depth items rest)
    have hvs := reads_printItems depth items rest hitems
    simp only [printItems, List.append_assoc]
    exact .items (skip_cons_of_not_blank (by decide) _) (hv.lineBreak style (depth + 1)) hvs

theorem reads_printFields : ∀ (depth : Nat) (fields : List (String × Json))
    (rest : Bytes), (∀ f ∈ fields, WellFormed (.ascii f.1)) → (∀ f ∈ fields, IsSound f.2) →
    Reads (.fields (fieldValues digits fields)) (printFields digits style depth fields ++ rest) rest
  | depth, [], rest, _, _ => by
    rw [printFields, List.append_assoc]
    exact .noFields (skip_lineBreak_cons (by decide))
  | depth, (key, j) :: fields, rest, hkeys, h => by
    obtain ⟨hkey, hkeys⟩ := List.forall_mem_cons.1 hkeys
    obtain ⟨hj, hfields⟩ := List.forall_mem_cons.1 h
    have hv := reads_printAt (depth + 1) j _ hj
      (endsNumber_printFields digits style depth fields rest)
    have hfs := reads_printFields depth fields rest hkeys hfields
    simp only [printFields, List.append_assoc]
    exact .fields (skip_cons_of_not_blank (by decide) _)
      ((reads_member hkey hv).lineBreak style (depth + 1)) hfs

end

/-- What is printed for a value denotes the value. -/
theorem IsSound.denotes {j : Json} (h : j.IsSound) :
    Denotes (j.printWith digits style) (j.value digits) := by
  refine ⟨[], ?_, rfl⟩
  have hreads := reads_printAt digits style 0 j [] h endsNumber_nil
  rwa [List.append_nil] at hreads

end Print

/-! ## One line -/

section Compact

variable (digits : Nat → Decimal)

mutual

/-- On one line there are no depths. -/
theorem printAt_compact (depth : Nat) :
    ∀ j, printAt digits .compact depth j = j.printWith digits .compact
  | natural n => by rw [printWith, printAt, printAt]
  | double d => by rw [printWith, printAt, printAt]
  | text s => by rw [printWith, printAt, printAt]
  | array [] => by rw [printWith, printAt, printAt]
  | array (item :: items) => by
    rw [printWith, printAt, printAt, printAt_compact (depth + 1) item, printAt_compact (0 + 1) item,
      printItems_compact depth items]
    rfl
  | object [] => by rw [printWith, printAt, printAt]
  | object ((key, j) :: fields) => by
    rw [printWith, printAt, printAt, printAt_compact (depth + 1) j, printAt_compact (0 + 1) j,
      printFields_compact depth fields]
    rfl

theorem printItems_compact (depth : Nat) :
    ∀ items, printItems digits .compact depth items = printItems digits .compact 0 items
  | [] => by rw [printItems, printItems]; rfl
  | item :: items => by
    rw [printItems, printItems, printAt_compact (depth + 1) item, printAt_compact (0 + 1) item,
      printItems_compact depth items]
    rfl

theorem printFields_compact (depth : Nat) :
    ∀ fields, printFields digits .compact depth fields = printFields digits .compact 0 fields
  | [] => by rw [printFields, printFields]; rfl
  | (key, j) :: fields => by
    rw [printFields, printFields, printAt_compact (depth + 1) j, printAt_compact (0 + 1) j,
      printFields_compact depth fields]
    rfl

end

end Compact

end Munch.Json
