import Mathlib.Tactic.FieldSimp
import Munch.Binary64.Text
import Munch.Literal.Double
import Munch.Proofs.Grammar
import Munch.Proofs.LimbDecimal
import Munch.Proofs.Shortest
import Munch.Token.Render

/-!
# The text of a double reads back

A text that is put together from the parts of a double literal is in the language of doubles and
is split into these parts again. The text that is written for a decimal is of this form, in every
style, and its parts have the value of the decimal. So the text of a finite number without sign
is read as this number.

## Main definitions

* `Literal.Double.Parts.Writes`: a text is put together from the parts of a literal.
-/
namespace Munch

namespace Literal.Double

open Bytes (IsDigits ofDecimal)

namespace Parts

/-! ## Splitting what was put together -/

/-- A point with digits behind it; nothing without digits. -/
def fractionText (digits : Bytes) : Bytes := if digits = [] then [] else 0x2E :: digits

/-- An exponent mark, a sign or none and digits; nothing without digits. -/
inductive PowerText : Bool → Bytes → Bytes → Prop
  | none : PowerText false [] []
  | unsigned {mark : Byte} {digits : Bytes} (hmark : isExponentMark mark = true)
      (hdigits : IsDigits digits) (hne : digits ≠ []) : PowerText false digits (mark :: digits)
  | signed {mark sign : Byte} {digits : Bytes} (hmark : isExponentMark mark = true)
      (hsign : isSign sign = true) (hdigits : IsDigits digits) (hne : digits ≠ []) :
      PowerText (sign == 0x2D) digits (mark :: sign :: digits)

/-- The text is put together from the parts. -/
structure Writes (p : Parts) (s : Bytes) : Prop where
  whole : IsDigits p.whole
  whole_ne : p.whole ≠ []
  fraction : IsDigits p.fraction
  text : ∃ power, PowerText p.isSmall p.power power ∧
    s = p.whole ++ (fractionText p.fraction ++ power)

variable {s t power : Bytes} {b : Byte} {isSmall : Bool}

theorem splitDigits_append (hs : IsDigits s) (ht : ∀ b, t.head? = some b → b.isDigit = false) :
    splitDigits (s ++ t) = (s, t) := by
  have hstop : t.takeWhile Byte.isDigit = [] ∧ t.dropWhile Byte.isDigit = t := by
    cases t with
    | nil => simp
    | cons b t => simp [ht b rfl]
  rw [splitDigits, List.span_eq_takeWhile_dropWhile, List.takeWhile_append_of_pos hs,
    List.dropWhile_append_of_pos hs, hstop.1, hstop.2, List.append_nil]

theorem not_isDigit_of_mark (h : isExponentMark b = true) : b.isDigit = false ∧ b ≠ 0x2E := by
  rcases Bool.or_eq_true _ _ ▸ h with h | h
  · rw [eq_of_beq h]
    decide
  · rw [eq_of_beq h]
    decide

theorem not_isDigit_of_sign (h : isSign b = true) : b.isDigit = false := by
  rcases Bool.or_eq_true _ _ ▸ h with h | h <;> rw [eq_of_beq h] <;> decide

theorem not_isSign_of_digit (h : b.isDigit = true) : isSign b = false := by
  by_contra hsign
  have hnot := not_isDigit_of_sign (Bool.not_eq_false _ ▸ hsign)
  rw [h] at hnot
  cases hnot

/-- A power begins with its mark; one without digits leaves the place to what follows. -/
theorem PowerText.head_append {q : Byte → Prop} (h : PowerText isSmall s power)
    (hmark : ∀ b, isExponentMark b = true → q b) (ht : s = [] → ∀ b, t.head? = some b → q b) :
    ∀ b, (power ++ t).head? = some b → q b := by
  cases h with
  | none => exact ht rfl
  | unsigned hb | signed hb =>
    intro b heq
    obtain rfl := Option.some.inj heq
    exact hmark _ hb

theorem PowerText.head (h : PowerText isSmall s power) :
    ∀ b, power.head? = some b → b.isDigit = false ∧ b ≠ 0x2E := by
  have hhead := h.head_append (fun _ => not_isDigit_of_mark) (t := []) (by simp)
  rwa [List.append_nil] at hhead

theorem PowerText.ne_nil (h : PowerText isSmall s power) (hs : s ≠ []) : power ≠ [] := by
  cases h with
  | none => exact absurd rfl hs
  | unsigned | signed => exact List.cons_ne_nil _ _

theorem signLength_of_digits (hs : IsDigits s) (hne : s ≠ []) (t : Bytes) :
    signLength (s ++ t) = 0 := by
  obtain ⟨b, s, rfl⟩ := List.exists_cons_of_ne_nil hne
  simp [signLength, not_isSign_of_digit (hs b (by simp))]

/-- A power is read up to what cannot belong to it. -/
theorem readPower_append (h : PowerText isSmall s power)
    (ht : ∀ b, t.head? = some b → b.isDigit = false)
    (hmark : s = [] → ∀ b, t.head? = some b → isExponentMark b = false) (index : Nat) :
    readPower (power ++ t) index = .ok (isSmall, s, t) := by
  cases h with
  | none =>
    cases t with
    | nil => rfl
    | cons b t => simp [readPower, hmark rfl b rfl]
  | unsigned hexponent hdigits hne =>
    have hhead : ((s ++ t).head? == some 0x2D) = false := by
      obtain ⟨b, s, rfl⟩ := List.exists_cons_of_ne_nil hne
      have hsign := not_isSign_of_digit (hdigits b (by simp))
      simp only [isSign, Bool.or_eq_false_iff] at hsign
      simpa using hsign.2
    simp only [List.cons_append, readPower, hexponent, if_true, signLength_of_digits hdigits hne,
      List.drop_zero, splitDigits_append hdigits ht, if_neg hne, hhead]
  | @signed mark sign _ hexponent hsign hdigits hne =>
    have hlength : signLength (sign :: (s ++ t)) = 1 := by simp [signLength, hsign]
    simp [readPower, hexponent, hlength, splitDigits_append hdigits ht, hne]

/-- The digits behind a point are read up to what cannot belong to them. -/
theorem readFraction_append (hs : IsDigits s) (ht : ∀ b, t.head? = some b → b.isDigit = false)
    (hpoint : s = [] → ∀ b, t.head? = some b → b ≠ 0x2E) (index : Nat) :
    readFraction (fractionText s ++ t) index = .ok (s, t) := by
  by_cases h0 : s = []
  · subst h0
    cases t with
    | nil => rfl
    | cons b t => simp [fractionText, readFraction, hpoint rfl b rfl]
  · simp [fractionText, readFraction, h0, splitDigits_append hs ht]

/-- A point is no digit, so the digits in front of a fraction end there. -/
theorem head_fractionText_append (ht : ∀ b, t.head? = some b → b.isDigit = false) :
    ∀ b, (fractionText s ++ t).head? = some b → b.isDigit = false := by
  unfold fractionText
  split
  · exact ht
  · intro b hb
    obtain rfl := Option.some.inj hb
    rfl

/-- Behind the digits and the fraction only the power is left to read. -/
theorem read_mantissa {whole fraction : Bytes} (hwhole : IsDigits whole) (hne : whole ≠ [])
    (hfraction : IsDigits fraction) (ht : ∀ b, t.head? = some b → b.isDigit = false)
    (hpoint : fraction = [] → ∀ b, t.head? = some b → b ≠ 0x2E) :
    let s := whole ++ (fractionText fraction ++ t)
    Parts.read s = (readPower t (whole ++ fractionText fraction).length).bind
      fun (isSmall, power, rest) =>
        if rest = [] then .ok ⟨whole, fraction, isSmall, power⟩
        else .error ⟨.trailingCharacters, s.length - rest.length⟩ := by
  intro s
  have hlength : s.length - t.length = (whole ++ fractionText fraction).length := by
    simp only [s, List.length_append]
    omega
  rw [Parts.read, splitDigits_append hwhole (head_fractionText_append ht)]
  simp only [hne, if_false, bind, Except.bind, readFraction_append hfraction ht hpoint, hlength]

/-- The byte goes on with the last part that is written, or it begins a part that is not. -/
def goesOn (p : Parts) (b : Byte) : Bool :=
  b.isDigit || (p.power == [] && (isExponentMark b || (p.fraction == [] && b == 0x2E)))

theorem goesOn_eq_false_iff {p : Parts} : p.goesOn b = false ↔ b.isDigit = false ∧
    (p.power = [] → isExponentMark b = false ∧ (p.fraction = [] → b ≠ 0x2E)) := by
  by_cases hpower : p.power = [] <;> by_cases hfraction : p.fraction = [] <;>
    simp [goesOn, hpower, hfraction]

/-- A text that is put together from parts is split into them, and what follows is refused unless it
begins with a byte that goes on with the text. -/
theorem Writes.read_append {p : Parts} (h : p.Writes s)
    (ht : ∀ b, t.head? = some b → p.goesOn b = false) :
    Parts.read (s ++ t) =
      if t = [] then .ok p else .error ⟨.trailingCharacters, s.length⟩ := by
  obtain ⟨power, hpower, rfl⟩ := h.text
  have hdigit : ∀ b, t.head? = some b → b.isDigit = false := fun b hb =>
    (goesOn_eq_false_iff.1 (ht b hb)).1
  have hmark : p.power = [] → ∀ b, t.head? = some b → isExponentMark b = false := fun hnil b hb =>
    ((goesOn_eq_false_iff.1 (ht b hb)).2 hnil).1
  have hpoint : p.fraction = [] → ∀ b, (power ++ t).head? = some b → b ≠ 0x2E := by
    intro hfraction
    refine hpower.head_append (fun b hb => (not_isDigit_of_mark hb).2) fun hnil b hb => ?_
    exact ((goesOn_eq_false_iff.1 (ht b hb)).2 hnil).2 hfraction
  have hrest := hpower.head_append (fun b hb => (not_isDigit_of_mark hb).1) fun _ => hdigit
  rw [List.append_assoc, List.append_assoc,
    read_mantissa h.whole h.whole_ne h.fraction hrest hpoint, readPower_append hpower hdigit hmark]
  have hlength : (p.whole ++ (fractionText p.fraction ++ (power ++ t))).length - t.length =
      (p.whole ++ (fractionText p.fraction ++ power)).length := by
    simp only [List.length_append]
    omega
  simp only [Except.bind, hlength]

/-- A text that is put together from parts is split into them. -/
theorem Writes.read_eq {p : Parts} (h : p.Writes s) : Parts.read s = .ok p := by
  simpa using h.read_append (t := []) (by simp)

/-! ## The language of doubles -/

theorem isDigits_iff_mem_number : IsDigits s ∧ s ≠ [] ↔ s ∈ Grammar.number := by
  rw [Grammar.number, Grammar.mem_many_byte, and_comm]
  simp only [IsDigits, Grammar.isDigit_iff]

theorem PowerText.mem (h : PowerText isSmall s power) :
    power ∈ Grammar.optional Grammar.exponent := by
  have mark_mem {b : Byte} (h : isExponentMark b = true) : b ∈ ({0x65, 0x45} : Set Byte) := by
    simpa [isExponentMark] using h
  cases h with
  | none => exact Or.inl rfl
  | @unsigned mark _ hmark hdigits hne =>
    exact Or.inr ⟨[mark], ⟨[mark], ⟨mark, mark_mem hmark, rfl⟩, [], Or.inl rfl, rfl⟩, s,
      isDigits_iff_mem_number.1 ⟨hdigits, hne⟩, rfl⟩
  | @signed mark sign _ hmark hsign hdigits hne =>
    have hsign : sign ∈ ({0x2B, 0x2D} : Set Byte) := by simpa [isSign] using hsign
    exact Or.inr ⟨[mark, sign], ⟨[mark], ⟨mark, mark_mem hmark, rfl⟩, [sign],
      Or.inr ⟨sign, hsign, rfl⟩, rfl⟩, s, isDigits_iff_mem_number.1 ⟨hdigits, hne⟩, rfl⟩

theorem fractionText_mem (hs : IsDigits s) :
    fractionText s ∈ Grammar.optional Grammar.fraction := by
  unfold fractionText
  split
  · exact Or.inl rfl
  · exact Or.inr ⟨_, rfl, s, isDigits_iff_mem_number.1 ⟨hs, ‹_›⟩, rfl⟩

theorem Writes.mem_double {p : Parts} (h : p.Writes s) : s ∈ Grammar.double := by
  obtain ⟨power, hpower, rfl⟩ := h.text
  rw [← List.append_assoc]
  exact ⟨_, ⟨p.whole, isDigits_iff_mem_number.1 ⟨h.whole, h.whole_ne⟩, _,
    fractionText_mem h.fraction, rfl⟩, power, hpower.mem, rfl⟩

/-- A literal with a fraction or a power is not made of digits alone. -/
theorem Writes.notMem_number {p : Parts} (h : p.Writes s)
    (hparts : p.fraction ≠ [] ∨ p.power ≠ []) : s ∉ Grammar.number := by
  intro hs
  obtain ⟨power, hpower, rfl⟩ := h.text
  have hdigits := (isDigits_iff_mem_number.2 hs).1
  obtain ⟨-, hrest⟩ := Bytes.isDigits_append.1 hdigits
  obtain ⟨hfraction, hpowers⟩ := Bytes.isDigits_append.1 hrest
  rcases hparts with hne | hne
  · rw [fractionText, if_neg hne] at hfraction
    exact absurd (hfraction 0x2E (by simp)) (by decide)
  · obtain ⟨b, power, rfl⟩ := List.exists_cons_of_ne_nil (hpower.ne_nil hne)
    have hb := hpowers b (by simp)
    rw [(hpower.head b rfl).1] at hb
    cases hb

end Parts
end Literal.Double

/-! ## Texts of decimals -/

namespace DecimalStyle

open Bytes (IsDigits ofDecimal)
open Binary64 (decimalValue)
open Literal.Double (Parts)

variable {digits : Bytes} {style : DecimalStyle}

/-- A number in this style is never a run of digits alone. -/
def IsPointed (style : DecimalStyle) : Prop := style.wholeMark = .ascii ".0"

/-- The style with a fraction behind every whole number. -/
def pointed (style : DecimalStyle) : DecimalStyle := { style with wholeMark := .ascii ".0" }

theorem isPointed_pointed (style : DecimalStyle) : style.pointed.IsPointed := rfl

theorem isPointed_json : json.IsPointed := rfl

theorem isDigits_replicate_zero (n : Nat) : IsDigits (List.replicate n 0x30) := by
  intro b hb
  rw [List.eq_of_mem_replicate hb]
  rfl

/-- The point stands among the digits or behind them. -/
theorem exists_writes_positional_ofNat (hstyle : style.IsPointed) (hdigits : IsDigits digits)
    (hne : digits ≠ []) (e : Nat) :
    ∃ p : Parts, p.Writes (style.positional digits (.ofNat e)) ∧ p.fraction ≠ [] ∧
      decimalValue p.digits p.exponent =
        decimalValue (ofDecimal digits) ((e : Int) + 1 - digits.length) := by
  have hpos := List.length_pos_iff.2 hne
  let whole := digits.take (e + 1) ++ List.replicate (e + 1 - digits.length) 0x30
  let fraction := if digits.drop (e + 1) = [] then [0x30] else digits.drop (e + 1)
  have htake : IsDigits (digits.take (e + 1)) := fun b hb => hdigits b (List.mem_of_mem_take hb)
  have hfraction : IsDigits fraction ∧ fraction ≠ [] := by
    simp only [fraction]
    split
    · exact ⟨isDigits_replicate_zero 1, by simp⟩
    · exact ⟨fun b hb => hdigits b (List.mem_of_mem_drop hb), ‹_›⟩
  refine ⟨⟨whole, fraction, false, []⟩, ⟨?_, ?_, hfraction.1, [], .none, ?_⟩, hfraction.2, ?_⟩
  · exact Bytes.isDigits_append.2 ⟨htake, isDigits_replicate_zero _⟩
  · simp [whole, hne]
  · rw [Parts.fractionText, if_neg hfraction.2, List.append_nil]
    simp only [positional, whole, fraction]
    rw [hstyle]
    split <;> rfl
  · have hnil : ofDecimal [] = 0 := rfl
    simp only [Parts.digits, Parts.exponent, hnil]
    rcases Nat.lt_or_ge (e + 1) digits.length with hlt | hge
    · have hdrop : digits.drop (e + 1) ≠ [] := by simp; omega
      have hwhole : whole ++ fraction = digits := by
        simp [whole, fraction, hdrop, show e + 1 - digits.length = 0 by omega]
      have hlength : fraction.length = digits.length - (e + 1) := by simp [fraction, hdrop]
      rw [hwhole, hlength]
      congr 1
      simp
      omega
    · have hdrop : digits.drop (e + 1) = [] := List.drop_eq_nil_of_le hge
      have hwhole : whole ++ fraction =
          digits ++ List.replicate (e + 1 - digits.length + 1) 0x30 := by
        simp [whole, fraction, hdrop, List.take_of_length_le hge, List.replicate_succ']
      have hlength : fraction.length = 1 := by simp [fraction, hdrop]
      rw [hwhole, hlength, Bytes.ofDecimal_append, Bytes.ofDecimal_replicate_zero,
        List.length_replicate, Nat.add_zero, ← Binary64.decimalValue_add]
      congr 1
      simp
      omega

/-- Zeros stand between the point and the digits. -/
theorem exists_writes_positional_negSucc (hdigits : IsDigits digits) (hne : digits ≠ []) (e : Nat) :
    ∃ p : Parts, p.Writes (style.positional digits (.negSucc e)) ∧ p.fraction ≠ [] ∧
      decimalValue p.digits p.exponent =
        decimalValue (ofDecimal digits) (Int.negSucc e + 1 - digits.length) := by
  let fraction := List.replicate e 0x30 ++ digits
  have hfraction : fraction ≠ [] := by simp [fraction, hne]
  refine ⟨⟨[0x30], fraction, false, []⟩, ⟨isDigits_replicate_zero 1, by simp, ?_, [], .none, ?_⟩,
    hfraction, ?_⟩
  · exact Bytes.isDigits_append.2 ⟨isDigits_replicate_zero e, hdigits⟩
  · simp [positional, Parts.fractionText, hfraction, fraction, Bytes.ascii]
  · have hvalue : ofDecimal ([0x30] ++ fraction) = ofDecimal digits := by
      rw [Bytes.ofDecimal_append, Bytes.ofDecimal_append, Bytes.ofDecimal_replicate_zero]
      simp [ofDecimal, Byte.digitValue]
    simp only [Parts.digits, Parts.exponent, hvalue]
    congr 1
    simp [ofDecimal, fraction, Int.negSucc_eq]
    omega

/-- The power makes up for the point behind the first digit. -/
theorem exists_writes_scientific (hdigits : IsDigits digits) (hne : digits ≠ []) (e : Int) :
    ∃ p : Parts, p.Writes (scientific digits e) ∧ p.power ≠ [] ∧
      decimalValue p.digits p.exponent =
        decimalValue (ofDecimal digits) (e + 1 - digits.length) := by
  have hpos := List.length_pos_iff.2 hne
  let number := Bytes.decimal e.natAbs
  let power := List.replicate (2 - number.length) 0x30 ++ number
  let sign : Byte := if e < 0 then 0x2D else 0x2B
  have hpower : power ≠ [] := by simp [power, number, Bytes.decimal_ne_nil]
  have hsmall : (sign == 0x2D) = decide (e < 0) := by
    by_cases h : e < 0 <;> simp [sign, h]
  have hsign : Literal.Double.isSign sign = true := by
    by_cases h : e < 0 <;> simp [sign, h, Literal.Double.isSign]
  refine ⟨⟨digits.take 1, digits.drop 1, sign == 0x2D, power⟩, ⟨?_, ?_, ?_, 0x65 :: sign :: power,
    .signed rfl hsign ?_ hpower, ?_⟩, hpower, ?_⟩
  · exact fun b hb => hdigits b (List.mem_of_mem_take hb)
  · simp [hne]
  · exact fun b hb => hdigits b (List.mem_of_mem_drop hb)
  · exact Bytes.isDigits_append.2 ⟨isDigits_replicate_zero _, Bytes.isDigits_decimal _⟩
  · by_cases h : e < 0 <;>
      simp [scientific, Parts.fractionText, sign, h, power, number, Bytes.ascii]
  · have hvalue : ofDecimal power = e.natAbs := by
      rw [Bytes.ofDecimal_append, Bytes.ofDecimal_replicate_zero, Bytes.ofDecimal_decimal]
      omega
    simp only [Parts.digits, Parts.exponent, hvalue, List.take_append_drop, hsmall,
      List.length_drop]
    congr 1
    by_cases h : e < 0
    · rw [if_pos (decide_eq_true h)]
      omega
    · rw [if_neg (by simpa using h)]
      omega

/-- The text of a decimal is put together from parts that have its value, a fraction or a power
among them. -/
theorem exists_writes_decimal (hstyle : style.IsPointed) (x : Decimal) :
    ∃ p : Parts, p.Writes (style.decimal x) ∧ (p.fraction ≠ [] ∨ p.power ≠ []) ∧
      decimalValue p.digits p.exponent = x.value := by
  have hdigits := Bytes.isDigits_decimal x.digits
  have hne := Bytes.decimal_ne_nil x.digits
  have hpos := List.length_pos_iff.2 hne
  have hvalue (e : Int) (he : e = x.exponent + ((Bytes.decimal x.digits).length - 1 : Nat)) :
      decimalValue (ofDecimal (Bytes.decimal x.digits)) (e + 1 - (Bytes.decimal x.digits).length) =
        x.value := by
    rw [Bytes.ofDecimal_decimal, Decimal.value]
    congr 1
    omega
  unfold decimal
  dsimp only
  split
  · rename_i h0
    refine ⟨⟨[0x30], [0x30], false, []⟩, ⟨isDigits_replicate_zero 1, by simp,
      isDigits_replicate_zero 1, [], .none, by rw [hstyle]; rfl⟩, Or.inl (by simp), ?_⟩
    simp [Decimal.value, decimalValue, h0, Parts.digits, ofDecimal, Byte.digitValue]
  · generalize he : x.exponent + (((Bytes.decimal x.digits).length - 1 : Nat) : Int) = e
    split
    · cases e with
      | ofNat e =>
        obtain ⟨p, hp, hfraction, heq⟩ := exists_writes_positional_ofNat hstyle hdigits hne e
        exact ⟨p, hp, Or.inl hfraction, heq.trans (hvalue _ he.symm)⟩
      | negSucc e =>
        obtain ⟨p, hp, hfraction, heq⟩ := exists_writes_positional_negSucc hdigits hne e
        exact ⟨p, hp, Or.inl hfraction, heq.trans (hvalue _ he.symm)⟩
    · obtain ⟨p, hp, hpower, heq⟩ := exists_writes_scientific hdigits hne e
      exact ⟨p, hp, Or.inr hpower, heq.trans (hvalue _ he.symm)⟩

/-- Digits alone are given a fraction. -/
theorem withFraction_of_isDigits (hdigits : IsDigits digits) :
    Token.withFraction digits = digits ++ .ascii ".0" := by
  have hmarks : (Bytes.ascii ".eEni").all (fun b => !b.isDigit) = true := by decide
  refine if_neg fun h => ?_
  obtain ⟨b, hb, hmark⟩ := List.any_eq_true.1 h
  have hnot := List.all_eq_true.1 hmarks b (by simpa using hmark)
  rw [hdigits b hb] at hnot
  cases hnot

theorem withFraction_of_mem {s : Bytes} {b : Byte} (hb : b ∈ s) (hmark : b ∈ Bytes.ascii ".eEni") :
    Token.withFraction s = s :=
  if_pos (List.any_eq_true.2 ⟨b, hb, by simpa using hmark⟩)

/-- What has no point and no exponent is given a fraction. -/
theorem withFraction_positional (hstyle : style.wholeMark = []) (hdigits : IsDigits digits)
    (e : Int) :
    Token.withFraction (style.positional digits e) = style.pointed.positional digits e := by
  have hpoint : (0x2E : Byte) ∈ Bytes.ascii ".eEni" := by decide
  cases e with
  | ofNat e =>
    simp only [positional, pointed]
    split
    · rw [hstyle, List.append_nil]
      refine withFraction_of_isDigits (Bytes.isDigits_append.2 ⟨?_, isDigits_replicate_zero _⟩)
      exact fun b hb => hdigits b (List.mem_of_mem_take hb)
    · exact withFraction_of_mem (by simp [Bytes.ascii]) hpoint
  | negSucc e => exact withFraction_of_mem (by simp [positional, Bytes.ascii]) hpoint

theorem withFraction_decimal (hstyle : style.wholeMark = []) (x : Decimal) :
    Token.withFraction (style.decimal x) = style.pointed.decimal x := by
  unfold decimal
  dsimp only
  split
  · rw [hstyle, List.append_nil]
    exact withFraction_of_isDigits (isDigits_replicate_zero 1)
  · rw [show style.pointed.exponentFrom = style.exponentFrom from rfl]
    split
    · exact withFraction_positional hstyle (Bytes.isDigits_decimal _) _
    · generalize x.exponent + ((Bytes.decimal x.digits).length - 1 : Nat) = e
      refine withFraction_of_mem (b := 0x65) ?_ (by decide)
      by_cases he : e < 0 <;> simp [scientific, he, Bytes.ascii]

end DecimalStyle

/-! ## Numbers -/

namespace Binary64

variable {m : Nat}

theorem text_ofMagnitude (hm : m < infinity) (style : DecimalStyle) :
    (ofMagnitude m).text style = style.decimal (shortest m) := by
  have hnan : (ofMagnitude m).isNaN = false := by
    rw [isNaN, magnitude_ofMagnitude hm]
    exact decide_eq_false (Nat.not_lt.2 hm.le)
  simp [text, hnan, isFinite_ofMagnitude hm, finiteText, sign, isNegative_ofMagnitude hm,
    magnitude_ofMagnitude hm]

end Binary64

namespace Literal.Double

/-- A number without sign that is read is finite. -/
theorem exists_magnitude_of_read {s : Bytes} {d : Binary64} (h : Double.read s = .ok d) :
    ∃ m < Binary64.infinity, d = Binary64.ofMagnitude m := by
  rw [Double.read_eq] at h
  cases hparts : Parts.read s with
  | error => simp [hparts, Except.bind] at h
  | ok parts =>
    cases hnumber : Binary64.ofDecimal? parts.digits parts.exponent with
    | none => simp [hparts, hnumber, Except.bind] at h
    | some d' =>
      obtain rfl : d' = d := by simpa [hparts, hnumber, Except.bind] using h
      rcases Binary64.ofDecimal?_cases parts.digits parts.exponent with
        ⟨m, hm, hread, -⟩ | ⟨hread, -⟩
      · exact ⟨m, hm, Option.some.inj (hnumber.symm.trans hread)⟩
      · cases hnumber.symm.trans hread

/-- The text of a decimal is a double literal that is read as the number to which the decimal
rounds. -/
theorem read_decimal {m : Nat} {x : Decimal} (hm : m < Binary64.infinity)
    (hx : Binary64.RoundsTo x.value m) {style : DecimalStyle} (hstyle : style.IsPointed) :
    Double.read (style.decimal x) = .ok (.ofMagnitude m) ∧ style.decimal x ∈ Grammar.double ∧
      style.decimal x ∉ Grammar.number := by
  obtain ⟨p, hp, hparts, hvalue⟩ := DecimalStyle.exists_writes_decimal hstyle x
  have hnumber := Binary64.ofDecimal?_eq (hvalue ▸ hx) hm
  refine ⟨?_, hp.mem_double, hp.notMem_number hparts⟩
  simp [Double.read_eq, hp.read_eq, hnumber, Except.bind]

/-- What a finite number without sign is rendered as is a double literal that is read as this
number. -/
theorem read_text {m : Nat} (hm : m < Binary64.infinity) :
    let d := Binary64.ofMagnitude m
    let text := Token.withFraction (d.text .listing)
    Double.read text = .ok d ∧ text ∈ Grammar.double ∧ text ∉ Grammar.number := by
  intro d text
  have htext : text = DecimalStyle.listing.pointed.decimal (Binary64.shortest m) := by
    rw [← DecimalStyle.withFraction_decimal rfl, ← Binary64.text_ofMagnitude hm]
  rw [htext]
  exact read_decimal hm (Binary64.roundsTo_shortest hm) (DecimalStyle.isPointed_pointed _)

end Literal.Double
end Munch
