import Mathlib.Order.Bounds.Basic
import Mathlib.Tactic.TFAE
import Munch.Proofs.RefusedLexeme
import Munch.Proofs.RenderedToken

/-!
# Doubles that are found and doubles that are read

A double is found by a scan that leaves out a part which is incomplete, and it is read by one that
refuses it. Both know the same language. The reader stops at the first byte with which the text can
no longer become a double, whatever follows.

## Main definitions

* `Literal.Double.Parts.Stuck`: a text that could become a double, but not with the next byte.
-/
namespace Munch

namespace Literal.Double

open Bytes (IsDigits)

namespace Parts

variable {s front rest : Bytes} {fault : Fault} {b : Byte} {index : Nat}

/-! ## Where a text gets stuck -/

/-- The text could become a double, but not with the next byte or at the end, for a fault. -/
inductive Stuck : Bytes → Option Byte → Fault → Prop
  /-- There are no digits yet. -/
  | whole {next : Option Byte} (hnext : ∀ b, next = some b → b.isDigit = false) :
      Stuck [] next .malformedDouble
  /-- There are no digits behind the point. -/
  | fraction {whole : Bytes} {next : Option Byte} (hwhole : IsDigits whole) (hne : whole ≠ [])
      (hnext : ∀ b, next = some b → b.isDigit = false) :
      Stuck (whole ++ [0x2E]) next .missingFraction
  /-- There is no sign and no digit behind the exponent mark. -/
  | unsigned {whole fraction : Bytes} {mark : Byte} {next : Option Byte} (hwhole : IsDigits whole)
      (hne : whole ≠ []) (hfraction : IsDigits fraction) (hmark : isExponentMark mark = true)
      (hnext : ∀ b, next = some b → b.isDigit = false ∧ isSign b = false) :
      Stuck (whole ++ (fractionText fraction ++ [mark])) next .missingExponent
  /-- There are no digits behind the sign of the exponent. -/
  | signed {whole fraction : Bytes} {mark sign : Byte} {next : Option Byte}
      (hwhole : IsDigits whole) (hne : whole ≠ []) (hfraction : IsDigits fraction)
      (hmark : isExponentMark mark = true) (hsign : isSign sign = true)
      (hnext : ∀ b, next = some b → b.isDigit = false) :
      Stuck (whole ++ (fractionText fraction ++ [mark, sign])) next .missingExponent
  /-- There is a whole double, and the next byte is no part of it. -/
  | trailing {p : Parts} {s : Bytes} {b : Byte} (h : p.Writes s) (hb : p.goesOn b = false) :
      Stuck s (some b) .trailingCharacters

theorem splitDigits_of_head (h : ∀ b, rest.head? = some b → b.isDigit = false) :
    splitDigits rest = ([], rest) :=
  splitDigits_append (s := []) (by simp [IsDigits]) h

/-- Behind a mark and a sign or none there are no digits. -/
theorem readPower_error {mark : Byte} {sign : Bytes} (hmark : isExponentMark mark = true)
    (hsign : signLength (sign ++ rest) = sign.length)
    (hrest : ∀ b, rest.head? = some b → b.isDigit = false) (index : Nat) :
    readPower (mark :: (sign ++ rest)) index =
      .error ⟨.missingExponent, index + 1 + sign.length⟩ := by
  simp [readPower, hmark, hsign, splitDigits_of_head hrest]

/-- What stands behind a mantissa from an exponent mark on is refused by the reader of powers. -/
theorem read_mantissa_error {whole fraction sign : Bytes} {mark : Byte} (hwhole : IsDigits whole)
    (hne : whole ≠ []) (hfraction : IsDigits fraction) (hmark : isExponentMark mark = true)
    (hsign : signLength (sign ++ rest) = sign.length)
    (hrest : ∀ b, rest.head? = some b → b.isDigit = false) :
    Parts.read (whole ++ (fractionText fraction ++ mark :: sign) ++ rest) =
      .error ⟨.missingExponent, (whole ++ (fractionText fraction ++ mark :: sign)).length⟩ := by
  have hhead : ∀ b, (mark :: (sign ++ rest)).head? = some b → b = mark := by simp [eq_comm]
  have hnot := not_isDigit_of_mark hmark
  have hsplit : whole ++ (fractionText fraction ++ mark :: sign) ++ rest =
      whole ++ (fractionText fraction ++ mark :: (sign ++ rest)) := by simp
  rw [hsplit, read_mantissa hwhole hne hfraction (fun b hb => hhead b hb ▸ hnot.1)
    (fun _ b hb => hhead b hb ▸ hnot.2), readPower_error hmark hsign hrest]
  simp only [Except.bind, List.length_append, List.length_cons]
  congr 2
  omega

/-- The reader refuses a text where it gets stuck. -/
theorem Stuck.read_eq (h : Stuck front rest.head? fault) :
    Parts.read (front ++ rest) = .error ⟨fault, front.length⟩ := by
  generalize hhead : rest.head? = next at h
  cases h with
  | whole hnext => simp [Parts.read, splitDigits_of_head (hhead ▸ hnext)]
  | fraction hwhole hne hnext =>
    rw [List.append_assoc, Parts.read, splitDigits_append hwhole (by simp [Byte.isDigit])]
    simp [hne, readFraction, splitDigits_of_head (hhead ▸ hnext), bind, Except.bind]
  | unsigned hwhole hne hfraction hmark hnext =>
    refine read_mantissa_error hwhole hne hfraction hmark ?_ fun b hb => (hnext b (hhead ▸ hb)).1
    cases rest with
    | nil => rfl
    | cons b rest => simp [signLength, (hnext b hhead.symm).2]
  | signed hwhole hne hfraction hmark hsign hnext =>
    exact read_mantissa_error hwhole hne hfraction hmark (by simp [signLength, hsign])
      (hhead ▸ hnext)
  | trailing hs hb =>
    have hne : rest ≠ [] := by
      rintro rfl
      cases hhead
    rw [hs.read_append fun c hc => Option.some.inj (hhead.symm.trans hc) ▸ hb, if_neg hne]

/-! ## Every text gets stuck or is a double -/

/-- Some beginning of the text gets stuck with what follows it. -/
def GetsStuck (s : Bytes) : Prop :=
  ∃ front rest fault, s = front ++ rest ∧ Stuck front rest.head? fault

theorem Writes.writes_or_stuck {p : Parts} (h : p.Writes front)
    (hrest : ∀ b, rest.head? = some b → p.goesOn b = false) :
    (∃ p : Parts, p.Writes (front ++ rest)) ∨ GetsStuck (front ++ rest) := by
  cases rest with
  | nil => exact Or.inl ⟨p, by rwa [List.append_nil]⟩
  | cons b rest => exact Or.inr ⟨front, b :: rest, _, rfl, .trailing h (hrest b rfl)⟩

theorem exists_digits_append (s : Bytes) : ∃ digits rest, s = digits ++ rest ∧ IsDigits digits ∧
    ∀ b, rest.head? = some b → b.isDigit = false := by
  refine ⟨s.takeWhile Byte.isDigit, s.dropWhile Byte.isDigit, List.takeWhile_append_dropWhile.symm,
    List.all_eq_true.1 List.all_takeWhile, fun b hb => ?_⟩
  have hnot := List.head?_dropWhile_not Byte.isDigit s
  rw [hb] at hnot
  simpa using hnot

section Mantissa

variable {whole fraction : Bytes} (hwhole : IsDigits whole) (hne : whole ≠ [])
include hwhole hne

/-- A text with a power is a double if nothing goes on with the power. -/
theorem PowerText.writes_or_stuck {isSmall : Bool} {digits power : Bytes}
    (h : PowerText isSmall digits power) (hfraction : IsDigits fraction)
    (hrest : ∀ b, rest.head? = some b → b.isDigit = false ∧
      (digits = [] → isExponentMark b = false ∧ (fraction = [] → b ≠ 0x2E))) :
    let s := whole ++ (fractionText fraction ++ (power ++ rest))
    (∃ p : Parts, p.Writes s) ∨ GetsStuck s := by
  have hwrites : Writes ⟨whole, fraction, isSmall, digits⟩
      (whole ++ (fractionText fraction ++ power)) := ⟨hwhole, hne, hfraction, power, h, rfl⟩
  have hcases := hwrites.writes_or_stuck fun b hb => goesOn_eq_false_iff.2 (hrest b hb)
  rwa [List.append_assoc, List.append_assoc] at hcases

/-- Behind an exponent mark a text has a power, or it gets stuck. -/
theorem writes_or_stuck_of_mark (hfraction : IsDigits fraction) {mark : Byte}
    (hmark : isExponentMark mark = true) (t : Bytes) :
    let s := whole ++ (fractionText fraction ++ mark :: t)
    (∃ p : Parts, p.Writes s) ∨ GetsStuck s := by
  by_cases hsign : ∃ sign rest, t = sign :: rest ∧ isSign sign = true
  · obtain ⟨sign, t, rfl, hsign⟩ := hsign
    obtain ⟨digits, rest, rfl, hdigits, hrest⟩ := exists_digits_append t
    by_cases hnone : digits = []
    · subst hnone
      exact Or.inr ⟨_, rest, _, by simp, .signed hwhole hne hfraction hmark hsign hrest⟩
    · exact (PowerText.signed hmark hsign hdigits hnone).writes_or_stuck hwhole hne hfraction
        fun b hb => ⟨hrest b hb, fun hnil => absurd hnil hnone⟩
  · obtain ⟨digits, rest, rfl, hdigits, hrest⟩ := exists_digits_append t
    by_cases hnone : digits = []
    · subst hnone
      refine Or.inr ⟨_, rest, _, by simp, .unsigned hwhole hne hfraction hmark fun b hb => ?_⟩
      obtain ⟨t, rfl⟩ := List.head?_eq_some_iff.1 hb
      exact ⟨hrest b hb, Bool.eq_false_iff.2 fun h => hsign ⟨b, t, rfl, h⟩⟩
    · exact (PowerText.unsigned hmark hdigits hnone).writes_or_stuck hwhole hne hfraction
        fun b hb => ⟨hrest b hb, fun hnil => absurd hnil hnone⟩

/-- Behind a mantissa a text ends or has an exponent, or it gets stuck. -/
theorem writes_or_stuck_of_mantissa (hfraction : IsDigits fraction) {t : Bytes}
    (ht : ∀ b, t.head? = some b → b.isDigit = false ∧ (fraction = [] → b ≠ 0x2E)) :
    let s := whole ++ (fractionText fraction ++ t)
    (∃ p : Parts, p.Writes s) ∨ GetsStuck s := by
  by_cases hmark : ∃ mark rest, t = mark :: rest ∧ isExponentMark mark = true
  · obtain ⟨mark, t, rfl, hmark⟩ := hmark
    exact writes_or_stuck_of_mark hwhole hne hfraction hmark t
  · refine PowerText.none.writes_or_stuck hwhole hne hfraction fun b hb => ?_
    obtain ⟨rest, rfl⟩ := List.head?_eq_some_iff.1 hb
    obtain ⟨hdigit, hpoint⟩ := ht b hb
    exact ⟨hdigit, fun _ => ⟨Bool.eq_false_iff.2 fun h => hmark ⟨b, rest, rfl, h⟩, hpoint⟩⟩

/-- Behind its digits a text has a fraction or none, or it gets stuck at the point. -/
theorem writes_or_stuck_of_whole {t : Bytes} (ht : ∀ b, t.head? = some b → b.isDigit = false) :
    (∃ p : Parts, p.Writes (whole ++ t)) ∨ GetsStuck (whole ++ t) := by
  by_cases hpoint : t.head? = some 0x2E
  · obtain ⟨t, rfl⟩ := List.head?_eq_some_iff.1 hpoint
    obtain ⟨digits, rest, rfl, hdigits, hrest⟩ := exists_digits_append t
    by_cases hnone : digits = []
    · subst hnone
      exact Or.inr ⟨whole ++ [0x2E], rest, _, by simp, .fraction hwhole hne hrest⟩
    · have hcases := writes_or_stuck_of_mantissa hwhole hne hdigits
        fun b hb => ⟨hrest b hb, fun hnil => absurd hnil hnone⟩
      rwa [fractionText, if_neg hnone] at hcases
  · have hnil : IsDigits [] := by simp [IsDigits]
    exact writes_or_stuck_of_mantissa hwhole hne hnil fun b hb =>
      ⟨ht b hb, fun _ heq => hpoint (heq ▸ hb)⟩

end Mantissa

/-- A text is put together from parts, or it gets stuck. -/
theorem writes_or_stuck (s : Bytes) : (∃ p : Parts, p.Writes s) ∨ GetsStuck s := by
  obtain ⟨digits, rest, rfl, hdigits, hrest⟩ := exists_digits_append s
  by_cases hnone : digits = []
  · subst hnone
    exact Or.inr ⟨[], rest, _, rfl, .whole hrest⟩
  · exact writes_or_stuck_of_whole hdigits hnone hrest

/-! ## The language and its beginnings -/

theorem read_eq_ok_iff {p : Parts} : Parts.read s = .ok p ↔ p.Writes s := by
  refine ⟨fun h => ?_, Writes.read_eq⟩
  rcases writes_or_stuck s with ⟨q, hq⟩ | ⟨front, rest, fault, rfl, hstuck⟩
  · obtain rfl := Except.ok.inj (hq.read_eq.symm.trans h)
    exact hq
  · cases hstuck.read_eq.symm.trans h

theorem exists_writes_iff : (∃ p : Parts, p.Writes s) ↔ s ∈ Grammar.double :=
  ⟨fun ⟨_, h⟩ => h.mem_double, exists_writes⟩

/-- Where a text gets stuck a zero could make it a double, if it is none. -/
theorem Stuck.exists_append_mem {next : Option Byte} (h : Stuck front next fault) :
    ∃ t, front ++ t ∈ Grammar.double := by
  have hzero : IsDigits [0x30] := by simp [IsDigits, Byte.isDigit]
  have hnil : IsDigits [] := by simp [IsDigits]
  cases h with
  | whole =>
    exact ⟨[0x30], (⟨hzero, by simp, hnil, [], .none, rfl⟩ :
      Writes ⟨[0x30], [], false, []⟩ [0x30]).mem_double⟩
  | @fraction whole _ hwhole hne =>
    refine ⟨[0x30], Writes.mem_double (p := ⟨whole, [0x30], false, []⟩)
      ⟨hwhole, hne, hzero, [], .none, by simp [fractionText]⟩⟩
  | @unsigned whole fraction mark _ hwhole hne hfraction hmark =>
    exact ⟨[0x30], Writes.mem_double (p := ⟨whole, fraction, false, [0x30]⟩)
      ⟨hwhole, hne, hfraction, _, .unsigned hmark hzero (by simp), by simp⟩⟩
  | @signed whole fraction mark sign _ hwhole hne hfraction hmark hsign =>
    exact ⟨[0x30], Writes.mem_double (p := ⟨whole, fraction, sign == 0x2D, [0x30]⟩)
      ⟨hwhole, hne, hfraction, _, .signed hmark hsign hzero (by simp), by simp⟩⟩
  | trailing hs => exact ⟨[], by simpa using hs.mem_double⟩

theorem Stuck.ne_outOfRange {next : Option Byte} (h : Stuck front next fault) :
    fault ≠ .outOfRange := by
  rintro rfl
  cases h

/-- Where a text gets stuck its longest beginning that could become a double ends. -/
theorem Stuck.isGreatest (h : Stuck front rest.head? fault) :
    IsGreatest {n | n ≤ (front ++ rest).length ∧
      ∃ t, (front ++ rest).take n ++ t ∈ Grammar.double} front.length := by
  refine ⟨⟨by simp, by simpa using h.exists_append_mem⟩, fun n ⟨hn, t, ht⟩ => ?_⟩
  by_contra hlt
  -- The next byte would be part of a double that begins like the text, where the text gets stuck.
  obtain ⟨k, rfl⟩ := Nat.exists_eq_add_of_lt (Nat.lt_of_not_le hlt)
  cases rest with
  | nil =>
    rw [List.append_nil] at hn
    exact hlt hn
  | cons b rest =>
    have htake : (front ++ b :: rest).take (front.length + k + 1) = front ++ b :: rest.take k := by
      simp [Nat.add_assoc, List.take_append]
    rw [htake, List.append_assoc, List.cons_append] at ht
    obtain ⟨p, hp⟩ := exists_writes ht
    have hstuck : Stuck front (b :: (rest.take k ++ t)).head? fault := h
    cases hp.read_eq.symm.trans hstuck.read_eq

end Parts

variable {s : Bytes}

theorem extent_eq_length_iff : s ≠ [] ∧ extent s = s.length ↔ s ∈ Grammar.double := by
  have hlongest := Grammar.isLongest_double s
  constructor
  · rintro ⟨hne, hlength⟩
    have hmem := hlongest.take_mem (hlength ▸ List.length_pos_iff.2 hne).ne'
    rwa [hlength, List.take_length] at hmem
  · intro hs
    refine ⟨?_, le_antisymm hlongest.le_length (hlongest.length_le s hs List.prefix_rfl)⟩
    rintro rfl
    obtain ⟨p, hp⟩ := Parts.exists_writes hs
    cases hp.read_eq

/-- A text that is split into its parts is read, unless its value is out of range. -/
theorem exists_parts_iff : (∃ p, Parts.read s = .ok p) ↔
    (∃ d, Double.read s = .ok d) ∨ Double.read s = .error ⟨.outOfRange, 0⟩ := by
  constructor
  · rintro ⟨p, hp⟩
    cases hd : Binary64.ofDecimal? p.digits p.exponent with
    | some d => exact Or.inl ⟨d, by simp [Double.read_eq, hp, hd, Except.bind]⟩
    | none => exact Or.inr (by simp [Double.read_eq, hp, hd, Except.bind])
  · intro h
    rcases Parts.writes_or_stuck s with ⟨p, hp⟩ | ⟨front, rest, fault, rfl, hstuck⟩
    · exact ⟨p, hp.read_eq⟩
    · rw [Double.read_eq, hstuck.read_eq] at h
      rcases h with ⟨d, hd⟩ | herror
      · cases hd
      · exact absurd (congrArg Refusal.fault (Except.error.inj herror)) hstuck.ne_outOfRange

theorem exists_refusedAt (h : s ∉ Grammar.double) :
    ∃ index, RefusedAt (Double.read s) .invalidNumericLiteral index ∧
      IsGreatest {n | n ≤ s.length ∧ ∃ t, s.take n ++ t ∈ Grammar.double} index := by
  rcases Parts.writes_or_stuck s with ⟨p, hp⟩ | ⟨front, rest, fault, rfl, hstuck⟩
  · exact absurd hp.mem_double h
  · have hread : Double.read (front ++ rest) = .error ⟨fault, front.length⟩ := by
      rw [Double.read_eq, hstuck.read_eq]
      rfl
    exact ⟨front.length, ⟨fault, hread, kind_of_read_error hread⟩, hstuck.isGreatest⟩

end Literal.Double

/-! ## Lexemes -/

open Bytes (IsDigits)

variable {rule : Rule} {lexeme rest : Bytes}

/-- Digits alone are a number, which is declared before the double. -/
theorem Applies.eq_number (h : Applies rule lexeme rest) (hdigits : IsDigits lexeme) :
    rule = .literal .number :=
  (h.alone.unique (Literal.applies_digits hdigits h.ne_nil)).1

/-- Without a point and an exponent mark a double would be a number. -/
theorem Applies.mark_mem (h : Applies (.literal .double) lexeme rest) :
    ∃ b ∈ lexeme, b ∈ Bytes.ascii ".eE" := by
  obtain ⟨_, ⟨whole, hwhole, fraction, hfraction, rfl⟩, power, hpower, rfl⟩ := h.mem_language
  cases fraction with
  | cons b fraction =>
    obtain rfl := Grammar.eq_point_of_cons_mem_fraction hfraction
    exact ⟨0x2E, by simp, by decide⟩
  | nil =>
    cases power with
    | cons b power =>
      refine ⟨b, by simp, ?_⟩
      rcases Grammar.mark_of_cons_mem_exponent hpower with rfl | rfl <;> decide
    | nil =>
      have hdigits : IsDigits ((whole ++ []) ++ []) := by
        simpa using (Literal.Double.Parts.isDigits_iff_mem_number.2 hwhole).1
      cases h.eq_number hdigits

/-- The reader of doubles and the scan for them know the same language. A text that is not in it is
refused behind its longest beginning that could become a double. In a source the digits alone are a
number, so every double has a mark. -/
theorem Lexer.double_exact :
    (∀ s : Bytes, [∃ p, Literal.Double.Parts.read s = .ok p,
        (∃ d, Literal.Double.read s = .ok d) ∨ Literal.Double.read s = .error ⟨.outOfRange, 0⟩,
        s ≠ [] ∧ Literal.Double.extent s = s.length, s ∈ Grammar.double].TFAE) ∧
    (∀ s : Bytes, s ∉ Grammar.double →
      ∃ index, RefusedAt (Literal.Double.read s) .invalidNumericLiteral index ∧
        IsGreatest {n | n ≤ s.length ∧ ∃ t, s.take n ++ t ∈ Grammar.double} index) ∧
    (∀ rule lexeme rest, Applies rule lexeme rest →
      (IsDigits lexeme → rule = .literal .number) ∧
      (rule = .literal .double → ∃ b ∈ lexeme, b ∈ Bytes.ascii ".eE")) ∧
    ∀ (source : Bytes) (n : Nat) (t : Token), .ok t ∈ (ofSource source).pull n → t.kind ≠ .eof →
      let lexeme := source.slice t.span.first t.span.last
      (IsDigits lexeme → t.kind = .number) ∧
      (t.kind = .double → ∃ b ∈ lexeme, b ∈ Bytes.ascii ".eE") := by
  refine ⟨fun s => ?_, fun s => Literal.Double.exists_refusedAt, fun rule lexeme rest h => ?_,
    fun source n t h ht => ?_⟩
  · tfae_have 1 ↔ 2 := Literal.Double.exists_parts_iff
    tfae_have 3 ↔ 4 := Literal.Double.extent_eq_length_iff
    tfae_have 1 ↔ 4 := by
      simp only [Literal.Double.Parts.read_eq_ok_iff, Literal.Double.Parts.exists_writes_iff]
    tfae_finish
  · exact ⟨h.eq_number, fun hrule => (hrule ▸ h).mark_mem⟩
  · intro lexeme
    rw [← place_zero] at h
    obtain ⟨first, rule, _, -, hfinds⟩ := exists_finds_of_mem_pull (Nat.zero_le _) h ht
    obtain rfl : lexeme = _ := hfinds.slice_eq
    refine ⟨fun hdigits => ?_, fun hkind => ?_⟩
    · exact (hfinds.rule_eq_literal_iff .number).1 (hfinds.applies.eq_number hdigits)
    · obtain rfl := (hfinds.rule_eq_literal_iff .double).2 hkind
      exact hfinds.applies.mark_mem

/-- A sign without digits behind it, and the number in front of a point without digits. -/
theorem Lexer.double_exact_sign :
    let s := Bytes.ascii "1.5e-"
    let t : Token := ⟨.number, .natural ⟨[1]⟩, ⟨0, 1⟩, .start⟩
    s ∉ Grammar.double ∧ RefusedAt (Literal.Double.read s) .invalidNumericLiteral 5 ∧
      IsGreatest {n | n ≤ s.length ∧ ∃ t, s.take n ++ t ∈ Grammar.double} 5 ∧
      .ok t ∈ (ofSource (Bytes.ascii "1.e5")).pull 1 ∧ t.kind = .number := by
  intro s t
  obtain ⟨hsame, hrefused, -, htoken⟩ := double_exact
  have hread : Literal.Double.read s = .error ⟨.missingExponent, 5⟩ := by decide +kernel
  have hnot : s ∉ Grammar.double := by
    intro hs
    rcases ((hsame s).out 3 1).1 hs with ⟨d, hd⟩ | herror
    · cases hread.symm.trans hd
    · cases hread.symm.trans herror
  obtain ⟨index, ⟨fault, herror, hkind⟩, hgreatest⟩ := hrefused s hnot
  obtain ⟨rfl, rfl⟩ := Refusal.mk.inj (Except.error.inj (herror.symm.trans hread))
  have hlongest : longest? (Bytes.ascii "1.e5") = some ⟨.literal .number, 1⟩ := by decide +kernel
  have hnumber : Literal.read .number (Bytes.ascii "1") = .ok (.natural ⟨[1]⟩) := by decide +kernel
  have hmem : .ok t ∈ (ofSource (Bytes.ascii "1.e5")).pull 1 :=
    mem_pull_of_yields (applies_of_longest? hlongest).1 (.literal hnumber)
  have hdigits : IsDigits (Bytes.ascii "1") := fun b hb => by
    rw [List.mem_singleton.1 (show b ∈ [0x31] from hb)]
    rfl
  exact ⟨hnot, ⟨_, herror, hkind⟩, hgreatest, hmem, (htoken _ _ t hmem (by decide)).1 hdigits⟩

end Munch
