import Munch.Proofs.DoubleText
import Munch.Proofs.Lexeme
import Munch.Token.Render

/-!
# Rendered tokens

What is rendered for a token that was read is, when it stands alone, a lexeme from which the same
kind and payload are read. A path must not have been written with a leading `./`, which reading
drops.

## Main definitions

* `Token.IsWrittenBy`: a lexeme that stands alone is read as the kind and payload of a token.
-/
namespace Munch

/-- The lexeme is read as the kind and the payload of the token if it stands alone. -/
def Token.IsWrittenBy (t : Token) (w : Bytes) : Prop :=
  ∃ rule, Applies rule w w ∧ rule.Yields w t.kind t.payload

variable {lexeme : Bytes} {t : Token}

/-! ## Fixed kinds -/

/-- The spelling of a fixed kind is read as this kind and is what is rendered for it. -/
def Rule.isSpelled : Rule → Bool
  | fixed _ kind =>
      longest? kind.spelling == some ⟨fixed kind.spelling kind, kind.spelling.length⟩ &&
      Token.render ⟨kind, .none, ⟨0, 0⟩, .start⟩ == kind.spelling &&
      !kind.spelling.contains Byte.quote
  | _ => true

theorem Rule.isSpelled_of_mem : ∀ rule ∈ rules, rule.isSpelled = true := by decide +kernel

theorem Rule.spelling_spec {text : Bytes} {kind : Kind} (h : fixed text kind ∈ rules) :
    Applies (fixed kind.spelling kind) kind.spelling kind.spelling ∧
      Token.render ⟨kind, .none, ⟨0, 0⟩, .start⟩ = kind.spelling ∧ Byte.quote ∉ kind.spelling := by
  have hspelled := isSpelled_of_mem _ h
  simp only [isSpelled, Bool.and_eq_true, beq_iff_eq] at hspelled
  obtain ⟨⟨hlongest, hrender⟩, hquote⟩ := hspelled
  obtain ⟨happlies, -⟩ := applies_of_longest? hlongest
  rw [List.take_length] at happlies
  exact ⟨happlies, hrender, by simpa using hquote⟩

/-! ## Literals -/

namespace Literal

open Bytes (IsDigits)

variable {n : LimbNat}

theorem notMem_takeWhile (rule : Rule) : rule ∉ rules.takeWhile (· ≠ rule) := by
  intro h
  have hne := List.all_eq_true.1 List.all_takeWhile _ h
  simp at hne

/-- A quoted text stands alone. -/
theorem applies_quote (s : Bytes) :
    Applies (.literal .text) (Text.quote s) (Text.quote s) := by
  refine .alone_of_mem (by decide) (List.cons_ne_nil _ _) (Text.quote_mem_text s) fun r hr hmem => ?_
  obtain rfl := Rule.eq_text_of_head (List.takeWhile_subset _ hr) hmem
  exact notMem_takeWhile _ hr

theorem mem_number_of_isDigits {s : Bytes} (h : IsDigits s) (hne : s ≠ []) : s ∈ Grammar.number :=
  Double.Parts.isDigits_iff_mem_number.1 ⟨h, hne⟩

/-- Digits stand alone as a number: it is declared before the double. -/
theorem applies_digits {s : Bytes} (h : IsDigits s) (hne : s ≠ []) :
    Applies (.literal .number) s s := by
  refine .alone_of_mem (by decide) hne (mem_number_of_isDigits h hne) fun r hr hmem => ?_
  obtain ⟨b, w, rfl⟩ := List.exists_cons_of_ne_nil hne
  have hb := Grammar.isDigit_iff.1 (h b (by simp))
  rcases Rule.eq_numeral_of_head (List.takeWhile_subset _ hr) hb hmem with rfl | rfl
  · exact notMem_takeWhile _ hr
  · exact absurd hr (by decide)

theorem applies_plus_digits {s : Bytes} (h : IsDigits s) (hne : s ≠ []) :
    Applies (.literal .natural) (0x2B :: s) (0x2B :: s) := by
  refine .alone_of_mem (by decide) (List.cons_ne_nil _ _)
    ⟨_, rfl, s, mem_number_of_isDigits h hne, rfl⟩ fun r hr hmem => ?_
  obtain ⟨b, w, rfl⟩ := List.exists_cons_of_ne_nil hne
  have hb := Grammar.isDigit_iff.1 (h b (by simp))
  obtain rfl := Rule.eq_natural_of_head (List.takeWhile_subset _ hr) hb (by simp) hmem
  exact notMem_takeWhile _ hr

/-- A double with a fraction or a power stands alone. -/
theorem applies_double {s : Bytes} (hdouble : s ∈ Grammar.double) (hnumber : s ∉ Grammar.number) :
    Applies (.literal .double) s s := by
  obtain ⟨b, w, rfl, hb⟩ : ∃ b w, s = b :: w ∧ b ∈ Grammar.digit := by
    cases s with
    | nil =>
      obtain ⟨_, ⟨u, hu, v, -, rfl⟩, w, -, hnil⟩ := hdouble
      have hu0 := (List.append_eq_nil_iff.1 (List.append_eq_nil_iff.1 hnil).1).1
      exact absurd (hu0 ▸ hu) Grammar.nil_notMem_number
    | cons b w =>
      have hmem : b :: w ∈ Literal.language .double := hdouble
      exact ⟨b, w, rfl, head_mem hmem⟩
  refine .alone_of_mem (by decide) (List.cons_ne_nil _ _) hdouble fun r hr hmem => ?_
  rcases Rule.eq_numeral_of_head (List.takeWhile_subset _ hr) hb hmem with rfl | rfl
  · exact hnumber hmem
  · exact notMem_takeWhile _ hr

theorem readNumber_decimal (h : n.Canonical) : Numeral.readNumber n.decimal = .ok n := by
  rw [Numeral.readNumber, LimbNat.parse?_decimal h]

theorem canonical_of_readNumber {s : Bytes} (h : Numeral.readNumber s = .ok n) : n.Canonical := by
  unfold Numeral.readNumber at h
  split at h
  · cases h
    exact LimbNat.canonical_of_parse? ‹_›
  · cases h

/-- A path that does not begin with `./` is read as it is. -/
theorem eq_of_readPath {s : Bytes} (h : Verbatim.readPath lexeme = .ok s)
    (hpath : ¬ Bytes.ascii "./" <+: lexeme) : s = lexeme := by
  rw [Verbatim.readPath, if_neg (mt List.isPrefixOf_iff_prefix.1 hpath)] at h
  unfold Verbatim.read at h
  split at h
  · cases h
  · exact (Except.ok.inj h).symm

theorem eq_of_read {s : Bytes} (h : Verbatim.read lexeme = .ok s) : s = lexeme := by
  unfold Verbatim.read at h
  split at h
  · cases h
  · exact (Except.ok.inj h).symm

theorem readNatural_eq_ok_iff {s : Bytes} :
    Numeral.readNatural s = .ok n ↔ Numeral.readNumber (s.drop 1) = .ok n := by
  rw [Numeral.readNatural]
  cases Numeral.readNumber (s.drop 1) <;> simp [Except.mapError]

theorem quote_notMem_of_isDigits {s : Bytes} (h : IsDigits s) : Byte.quote ∉ s :=
  fun hmem => absurd (h _ hmem) (by decide)

theorem quote_notMem_of_mem_double {s : Bytes} (h : s ∈ Grammar.double) : Byte.quote ∉ s := by
  have hover : Grammar.Over {Byte.quote}ᶜ Grammar.double := by
    refine Grammar.over_double (fun b hb heq => ?_) (by simp [Byte.quote])
    obtain rfl : b = Byte.quote := heq
    exact absurd (Grammar.isDigit_iff.2 hb) (by decide)
  exact fun hmem => hover s h _ hmem rfl

end Literal

/-! ## All tokens -/

open Literal.Text (ClosesEscaped)

/-- What is rendered for a token that was read from a lexeme. -/
structure Token.RendersFrom (t : Token) (lexeme : Bytes) : Prop where
  isWrittenBy : t.IsWrittenBy t.render
  quote_mem : Byte.quote ∈ t.render → Byte.quote ∈ lexeme
  closesEscaped : t.kind = .text → ClosesEscaped t.render → ClosesEscaped lexeme

open Literal in
theorem Token.rendersFrom {rule : Rule} {s : Bytes} (h : Applies rule lexeme s)
    (hyields : rule.Yields lexeme t.kind t.payload)
    (hpath : t.kind = .file → ¬ Bytes.ascii "./" <+: lexeme) : t.RendersFrom lexeme := by
  obtain ⟨kind, payload, span, position⟩ := t
  cases hyields with
  | fixed text =>
    obtain ⟨happlies, hrender, hquote⟩ := Rule.spelling_spec h.mem_rules
    have hrender : Token.render ⟨kind, .none, span, position⟩ = kind.spelling := hrender
    refine ⟨⟨_, hrender ▸ happlies, .fixed _ _ _⟩, fun hmem => ?_, ?_⟩
    · exact absurd (hrender ▸ hmem) hquote
    · rintro rfl
      cases Rule.eq_literal_of_kind? .text _ h.mem_rules rfl
  | @literal form _ _ hread =>
    cases form with
    | text =>
      obtain ⟨s, hs, rfl⟩ := Except.exists_ok_of_map hread
      obtain ⟨body, hlexeme, hwell, hbody⟩ := Text.exists_body_of_unquote hs
      have hread : Literal.read .text (Text.quote s) = .ok (.text s) := by
        rw [Literal.read, Text.unquote_quote (Text.wellFormed_of_unescape hbody hwell)]
        rfl
      refine ⟨⟨_, applies_quote s, .literal hread⟩, fun _ => ?_, fun _ => ?_⟩
      · simp [hlexeme]
      · exact Text.closesEscaped_of_quote hs
    | natural =>
      obtain ⟨n, hn, rfl⟩ := Except.exists_ok_of_map hread
      have hcanonical := canonical_of_readNumber (readNatural_eq_ok_iff.1 hn)
      obtain ⟨hdigits, hne, -⟩ := LimbNat.decimal_spec hcanonical.1
      have hread : Literal.read .natural (0x2B :: n.decimal) = .ok (.natural n) := by
        have hdrop : (0x2B :: n.decimal).drop 1 = n.decimal := rfl
        rw [Literal.read, readNatural_eq_ok_iff.2 (hdrop ▸ readNumber_decimal hcanonical)]
        rfl
      refine ⟨⟨_, applies_plus_digits hdigits hne, .literal hread⟩, fun hmem => ?_, nofun⟩
      rcases List.mem_cons.1 hmem with heq | hmem
      · exact absurd heq (by decide)
      · exact absurd hmem (quote_notMem_of_isDigits hdigits)
    | number =>
      obtain ⟨n, hn, rfl⟩ := Except.exists_ok_of_map hread
      have hcanonical := canonical_of_readNumber hn
      obtain ⟨hdigits, hne, -⟩ := LimbNat.decimal_spec hcanonical.1
      have hread : Literal.read .number n.decimal = .ok (.natural n) := by
        rw [Literal.read, readNumber_decimal hcanonical]
        rfl
      refine ⟨⟨_, applies_digits hdigits hne, .literal hread⟩, fun hmem => ?_, nofun⟩
      exact absurd hmem (quote_notMem_of_isDigits hdigits)
    | double =>
      obtain ⟨d, hd, rfl⟩ := Except.exists_ok_of_map hread
      obtain ⟨m, hm, rfl⟩ := Double.exists_magnitude_of_read hd
      obtain ⟨hd', hdouble, hnumber⟩ := Double.read_text hm
      have hread : Literal.read .double (withFraction ((Binary64.ofMagnitude m).text .listing)) =
          .ok (.double (.ofMagnitude m)) := by
        rw [Literal.read, hd']
        rfl
      refine ⟨⟨_, applies_double hdouble hnumber, .literal hread⟩, fun hmem => ?_, nofun⟩
      exact absurd hmem (quote_notMem_of_mem_double hdouble)
    | label =>
      obtain ⟨s, hs, rfl⟩ := Except.exists_ok_of_map hread
      obtain rfl := eq_of_read hs
      exact ⟨⟨_, h.alone, .literal hread⟩, fun hmem => hmem, nofun⟩
    | path =>
      obtain ⟨s, hs, rfl⟩ := Except.exists_ok_of_map hread
      obtain rfl := eq_of_readPath hs (hpath rfl)
      exact ⟨⟨_, h.alone, .literal hread⟩, fun hmem => hmem, nofun⟩
    | address =>
      obtain ⟨s, hs, rfl⟩ := Except.exists_ok_of_map hread
      obtain rfl := eq_of_read hs
      exact ⟨⟨_, h.alone, .literal hread⟩, fun hmem => hmem, nofun⟩

end Munch
