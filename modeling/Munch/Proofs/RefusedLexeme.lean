import Munch.Proofs.DoubleText
import Munch.Proofs.Refusal
import Munch.Proofs.Seam
import Munch.Proofs.Unquoting

/-!
# Why lexemes are refused

A literal is read by a check that knows nothing of the rule that found it. On the lexemes of the
rule most of the check is idle: a text has its quotes, and a numeral is well-formed. What is left
are ill-formed UTF-8, escapes, and doubles out of range, each found at a byte of the lexeme.

## Main definitions

* `Literal.Refuses`: the reasons for which lexemes are refused.
-/
namespace Munch.Literal

open Utf8 (WellFormed Seam)

/-- A lexeme of a form is refused at one of its bytes. -/
inductive Refuses (lexeme : Bytes) : Literal → Refusal → Prop
  /-- A text is ill-formed. -/
  | illFormedText {index : Nat} (h : Utf8.firstFault? lexeme = some index) :
      Refuses lexeme text ⟨.illFormedText, index⟩
  /-- A backslash stands before the closing quote. -/
  | dangling {front : Bytes} (h : lexeme = front ++ [Byte.backslash, Byte.quote]) :
      Refuses lexeme text ⟨.danglingEscape, front.length⟩
  /-- A backslash stands before a byte that is no code. -/
  | unknown {front back : Bytes} {code : Byte}
      (h : lexeme = front ++ Byte.backslash :: code :: back)
      (hcode : Text.escapeValue? code = none) :
      Refuses lexeme text ⟨.unknownEscape code, front.length⟩
  /-- A double is too large. -/
  | outOfRange : Refuses lexeme double ⟨.outOfRange, 0⟩
  /-- A path or an address is ill-formed. -/
  | illFormedSequence {form : Literal} {index : Nat} (hform : form = path ∨ form = address)
      (h : Utf8.firstFault? lexeme = some index) :
      Refuses lexeme form ⟨.illFormedSequence, index⟩

variable {s lexeme : Bytes} {form : Literal} {r : Refusal}

/-! ## UTF-8 -/

theorem faultFrom_add (first n : Nat) (s : Bytes) :
    Utf8.faultFrom (first + n) s = (Utf8.faultFrom first s).map (· + n) := by
  fun_induction Utf8.faultFrom first s with
  | case1 => rw [Utf8.faultFrom_nil]; rfl
  | case2 first s hs hnone => rw [Utf8.faultFrom_of_none hs hnone]; rfl
  | case3 first s hs m hm ih => rw [Utf8.faultFrom_of_some hm, Nat.add_right_comm, ih]

/-- Bytes below 0x80 put in front of a text move its fault. -/
theorem firstFault?_append_of_ascii {front : Bytes} (h : ∀ b ∈ front, b < 0x80) (s : Bytes) :
    Utf8.firstFault? (front ++ s) = (Utf8.firstFault? s).map (· + front.length) := by
  have hwell : Utf8.WellFormed front := Utf8.wellFormed_of_ascii (by simpa using h)
  rw [Utf8.firstFault?, Utf8.firstFault?, ← faultFrom_add, Utf8.faultFrom_append hwell]

theorem Verbatim.read_error (h : Verbatim.read s = .error r) :
    ∃ index, r = ⟨.illFormedSequence, index⟩ ∧ Utf8.firstFault? s = some index := by
  unfold Verbatim.read at h
  split at h
  · rename_i index hfault
    cases h
    exact ⟨index, rfl, hfault⟩
  · cases h

/-- The check of a path begins behind a leading `./`, and the index is counted from in front of
it. -/
theorem Verbatim.readPath_error (h : Verbatim.readPath s = .error r) :
    ∃ index, r = ⟨.illFormedSequence, index⟩ ∧ Utf8.firstFault? s = some index := by
  unfold Verbatim.readPath at h
  split at h
  · rename_i hdot
    obtain ⟨rest, rfl⟩ := List.isPrefixOf_iff_prefix.1 hdot
    replace h : (Verbatim.read rest).mapError (Refusal.shift 2) = .error r := h
    cases hread : Verbatim.read rest with
    | ok => rw [hread] at h; cases h
    | error r' =>
      rw [hread] at h
      cases h
      obtain ⟨index, rfl, hfault⟩ := Verbatim.read_error hread
      refine ⟨index + 2, rfl, ?_⟩
      rw [firstFault?_append_of_ascii (by simp [Bytes.ascii]), hfault]
      rfl
  · exact Verbatim.read_error h

theorem Verbatim.read_of_ascii (h : ∀ b ∈ s, b < 0x80) : Verbatim.read s = .ok s := by
  rw [Verbatim.read, Utf8.firstFault?_of_ascii (by simpa using h)]

/-! ## Escapes -/

theorem Text.refuses (hmem : lexeme ∈ Grammar.text) (h : Text.unquote lexeme = .error r) :
    Refuses lexeme text r := by
  obtain ⟨t, -, rfl⟩ := Grammar.mem_text_iff.1 hmem
  have hquoted : Text.isQuoted (Byte.quote :: (t ++ [Byte.quote])) = true :=
    Text.isQuoted_iff.2 ⟨t, rfl⟩
  cases hfault : Utf8.firstFault? (Byte.quote :: (t ++ [Byte.quote])) with
  | some index =>
    rw [Text.unquote_of_firstFault? hquoted hfault] at h
    cases h
    exact .illFormedText hfault
  | none =>
    have htext := Utf8.isText_iff_wellFormed.2 (Utf8.firstFault?_eq_none_iff.1 hfault)
    rw [Text.unquote_of_isText hquoted htext, Text.body_of_quotes] at h
    obtain ⟨items, rest, rfl, hbroken, hindex⟩ := Text.exists_broken_of_unescape h
    obtain ⟨fault, index⟩ := r
    obtain rfl : index = (Byte.quote :: Text.written items).length := hindex.trans (Nat.add_comm ..)
    cases hbroken with
    | dangling => exact .dangling (by simp)
    | @unknown code rest hcode =>
      have hsplit : Byte.quote :: (Text.written items ++ Byte.backslash :: code :: rest ++
          [Byte.quote]) = (Byte.quote :: Text.written items) ++
            Byte.backslash :: code :: (rest ++ [Byte.quote]) := by simp
      exact .unknown hsplit (Text.escapeValue?_eq_none_iff.2 hcode)

/-! ## Numerals -/

theorem Numeral.exists_readNumber (h : s ∈ Grammar.number) : ∃ n, Numeral.readNumber s = .ok n := by
  obtain ⟨hdigits, hne⟩ := Double.Parts.isDigits_iff_mem_number.2 h
  obtain ⟨n, hn, -⟩ := LimbNat.parse?_of_isDigits hdigits hne
  exact ⟨n, by simp [Numeral.readNumber, hn]⟩

theorem Double.Parts.exists_powerText {power : Bytes}
    (h : power ∈ Grammar.optional Grammar.exponent) :
    ∃ isSmall digits, Double.Parts.PowerText isSmall digits power := by
  rcases Grammar.mem_optional.1 h with rfl | ⟨_, ⟨_, ⟨mark, hmark, rfl⟩, sign, hsign, rfl⟩, digits,
    hdigits, rfl⟩
  · exact ⟨_, _, .none⟩
  · obtain ⟨hdigits, hne⟩ := Double.Parts.isDigits_iff_mem_number.2 hdigits
    have hmark := Grammar.isExponentMark_iff.2 hmark
    rcases Grammar.mem_optional.1 hsign with rfl | ⟨b, hb, rfl⟩
    · exact ⟨_, _, .unsigned hmark hdigits hne⟩
    · exact ⟨_, _, .signed hmark (Grammar.isSign_iff.2 hb) hdigits hne⟩

/-- Every text in the language of doubles is put together from parts. -/
theorem Double.Parts.exists_writes (h : s ∈ Grammar.double) :
    ∃ p : Double.Parts, p.Writes s := by
  obtain ⟨_, ⟨whole, hwhole, fraction, hfraction, rfl⟩, power, hpower, rfl⟩ := h
  obtain ⟨hwhole, hne⟩ := Double.Parts.isDigits_iff_mem_number.2 hwhole
  obtain ⟨isSmall, digits, hpower⟩ := Double.Parts.exists_powerText hpower
  rcases Grammar.mem_optional.1 hfraction with rfl | ⟨_, rfl, after, hafter, rfl⟩
  · exact ⟨⟨whole, [], isSmall, digits⟩, hwhole, hne, by simp [Bytes.IsDigits], power, hpower,
      by simp [Double.Parts.fractionText]⟩
  · obtain ⟨hafter, hnot⟩ := Double.Parts.isDigits_iff_mem_number.2 hafter
    refine ⟨⟨whole, after, isSmall, digits⟩, hwhole, hne, hafter, power, hpower, ?_⟩
    rw [Double.Parts.fractionText, if_neg hnot]
    exact List.append_assoc _ _ _

theorem Double.refuses (hmem : lexeme ∈ Grammar.double) (h : Double.read lexeme = .error r) :
    Refuses lexeme double r := by
  obtain ⟨p, hp⟩ := Double.Parts.exists_writes hmem
  rw [Double.read_eq, hp.read_eq] at h
  simp only [Except.bind] at h
  split at h
  · cases h
  · cases h
    exact .outOfRange

/-! ## All forms -/

/-- A lexeme of a form is refused for one of the reasons only. -/
theorem refuses_of_read (hmem : lexeme ∈ form.language) (h : form.read lexeme = .error r) :
    Refuses lexeme form r := by
  cases form with
  | text => exact Text.refuses hmem (Except.eq_error_of_map h)
  | natural =>
    obtain ⟨_, rfl, digits, hdigits, rfl⟩ := hmem
    obtain ⟨n, hn⟩ := Numeral.exists_readNumber hdigits
    have hread : Numeral.readNatural (Bytes.ascii "+" ++ digits) = .ok n := by
      rw [Numeral.readNatural, show (Bytes.ascii "+" ++ digits).drop 1 = digits from rfl, hn]
      rfl
    have herror := Except.eq_error_of_map h
    exact absurd (hread.symm.trans herror) (by simp)
  | number =>
    obtain ⟨n, hn⟩ := Numeral.exists_readNumber hmem
    have herror := Except.eq_error_of_map h
    exact absurd (hn.symm.trans herror) (by simp)
  | double => exact Double.refuses hmem (Except.eq_error_of_map h)
  | label =>
    have hascii : ∀ b ∈ lexeme, b < 0x80 := fun b => over_ascii rfl lexeme hmem b
    have hread := Verbatim.read_of_ascii hascii
    have herror := Except.eq_error_of_map h
    exact absurd (hread.symm.trans herror) (by simp)
  | path =>
    obtain ⟨index, rfl, hfault⟩ := Verbatim.readPath_error (Except.eq_error_of_map h)
    exact .illFormedSequence (Or.inl rfl) hfault
  | address =>
    obtain ⟨index, rfl, hfault⟩ := Verbatim.read_error (Except.eq_error_of_map h)
    exact .illFormedSequence (Or.inr rfl) hfault

/-- A lexeme is refused at one of its bytes. -/
theorem Refuses.index_lt (h : Refuses lexeme form r) (hne : lexeme ≠ []) :
    r.index < lexeme.length := by
  cases h with
  | illFormedText hfault | illFormedSequence _ hfault =>
    exact (Utf8.firstFault?_eq_some_iff.1 hfault).1
  | dangling h | unknown h => simp [h]
  | outOfRange => exact List.length_pos_iff.2 hne

end Munch.Literal
