import Munch.Proofs.Boundary
import Munch.Proofs.CodePoint
import Munch.Proofs.Scan

/-!
# Lexemes end between code points

The rules are matched byte by byte, and paths, addresses, comments and texts may hold any bytes.
Still, at the end of every lexeme and of every gap there is a byte below 0x80 on one side or the
other, or the lexeme is a fixed one, made of whole code points. So no code point has bytes both in
a lexeme and behind it, and what is cut from a well-formed text is well-formed.

## Main definitions

* `Utf8.Seam`: no code point has bytes of both of two texts.
-/
namespace Munch

namespace Utf8

/-- The last byte of the first text, if there is one, or the first byte of the second text, if there
is one, is below 0x80. -/
def Seam (s t : Bytes) : Prop := (∀ b ∈ s.getLast?, b < 0x80) ∨ ∀ b ∈ t.head?, b < 0x80

variable {s t : Bytes}

theorem Seam.not_isCodePoint (h : Seam s t) (hs : s ≠ []) (ht : t ≠ []) :
    ¬ IsCodePoint (s ++ t) := by
  intro hpoint
  obtain ⟨b, hb, hascii⟩ : ∃ b ∈ s ++ t, b < 0x80 := by
    rcases h with h | h
    · exact ⟨s.getLast hs, by simp, h _ (List.getLast?_eq_some_getLast hs)⟩
    · exact ⟨t.head ht, by simp, h _ (List.head?_eq_some_head ht)⟩
  have hlength := congrArg List.length (hpoint.eq_of_ascii_mem hb hascii)
  have hspos := List.length_pos_iff.2 hs
  have htpos := List.length_pos_iff.2 ht
  rw [List.length_append, List.length_singleton] at hlength
  omega

/-- A seam stays one in front of every beginning of the second text. -/
theorem Seam.take (h : Seam s t) {n : Nat} (hn : n ≠ 0) : Seam s (t.take n) := by
  refine h.imp_right fun h b hb => h b ?_
  rwa [Option.mem_def, List.head?_take, if_neg hn] at hb

/-- A seam stays one behind every end of the first text. -/
theorem Seam.drop (h : Seam s t) (n : Nat) : Seam (s.drop n) t := by
  refine h.imp_left fun h b hb => h b ?_
  rw [Option.mem_def, List.getLast?_drop] at hb
  split at hb
  · cases hb
  · exact hb

/-- What follows a seam does not change what stands at the head. -/
theorem Seam.codePointLength?_append (h : Seam s t) (hs : s ≠ []) :
    codePointLength? (s ++ t) = codePointLength? s := by
  cases hlength : codePointLength? s with
  | some n => exact Utf8.codePointLength?_append hlength t
  | none =>
    by_contra hsome
    obtain ⟨n, hn⟩ := Option.ne_none_iff_exists'.1 hsome
    have hpoint := isCodePoint_take hn
    rcases Nat.lt_or_ge s.length n with hlt | hge
    · rw [List.take_append, List.take_of_length_le hlt.le] at hpoint
      refine (h.take (n := n - s.length) (by omega)).not_isCodePoint hs ?_ hpoint
      have hle := codePointLength?_le hn
      rw [List.length_append] at hle
      apply List.length_pos_iff.1
      rw [List.length_take]
      omega
    · rw [List.take_append_of_le_length hge] at hpoint
      have hhead := Utf8.codePointLength?_append hpoint (s.drop n)
      rw [List.take_append_drop, hlength] at hhead
      cases hhead

theorem Seam.wellFormed (h : Seam s t) (hst : WellFormed (s ++ t)) :
    WellFormed s ∧ WellFormed t := by
  generalize hu : s ++ t = u at hst
  induction hst generalizing s with
  | nil =>
    obtain ⟨rfl, rfl⟩ := List.append_eq_nil_iff.1 hu
    exact ⟨.nil, .nil⟩
  | @cons point rest hpoint hrest ih =>
    rcases List.append_eq_append_iff.1 hu with ⟨v, rfl, rfl⟩ | ⟨v, rfl, hv⟩
    · -- The first code point reaches the end of the first text or goes beyond it.
      by_cases hs : s = []
      · subst hs
        exact ⟨.nil, .cons hpoint hrest⟩
      by_cases hv : v = []
      · subst hv
        rw [List.append_nil] at hpoint
        exact ⟨by simpa using WellFormed.cons hpoint .nil, hrest⟩
      · have hseam : Seam s v := h.imp_right fun h b hb => h b (by
          rw [Option.mem_def] at hb ⊢
          rw [List.head?_append, hb, Option.some_or])
        exact absurd hpoint (hseam.not_isCodePoint hs hv)
    · by_cases hvnil : v = []
      · subst hvnil
        obtain rfl : rest = t := hv
        exact ⟨.cons hpoint .nil, hrest⟩
      · have hseam : Seam v t := h.imp_left fun h b hb => h b (by
          rw [Option.mem_def] at hb ⊢
          rw [List.getLast?_append, hb, Option.some_or])
        obtain ⟨hfront, hback⟩ := ih hseam hv.symm
        exact ⟨.cons hpoint hfront, hback⟩

/-- What stands behind a well-formed text is well-formed if the whole is. -/
theorem WellFormed.of_append_left (hs : WellFormed s) (hst : WellFormed (s ++ t)) :
    WellFormed t := by
  rw [← firstFault?_eq_none_iff, firstFault?, faultFrom_append hs] at hst
  exact wellFormed_of_faultFrom_eq_none hst

theorem seam_of_ascii (h : ∀ b ∈ s, b < 0x80) (t : Bytes) : Seam s t :=
  Or.inl fun b hb => h b (List.mem_of_getLast? hb)

end Utf8

open Utf8 (Seam WellFormed)

/-! ## Rules -/

/-- A fixed lexeme is ASCII or one code point. -/
def Rule.isWhole : Rule → Bool
  | fixed lexeme _ => lexeme.all (fun b => b < 0x80) ||
      Utf8.codePointLength? lexeme == some lexeme.length
  | _ => true

theorem Rule.isWhole_of_mem : ∀ rule ∈ rules, rule.isWhole = true := by decide

theorem Rule.wellFormed_of_fixed {lexeme : Bytes} {kind : Kind} (h : fixed lexeme kind ∈ rules) :
    WellFormed lexeme := by
  have hwhole := isWhole_of_mem _ h
  simp only [isWhole, Bool.or_eq_true, beq_iff_eq] at hwhole
  rcases hwhole with hascii | hpoint
  · exact Utf8.wellFormed_of_ascii hascii
  · simpa using WellFormed.cons hpoint .nil

namespace Grammar

theorem ascii_of_white {b : Byte} (h : b ∈ white) : b < 0x80 := by
  rw [← isWhite_iff] at h
  grind [Byte.isWhite]

theorem ascii_of_digit {b : Byte} (h : b ∈ digit) : b < 0x80 := by
  grind [digit]

theorem ascii_of_identifierPart {b : Byte} (h : b ∈ identifierPart) : b < 0x80 := by
  rw [← isIdentifierPart_iff] at h
  grind [Literal.Verbatim.isIdentifierPart, Byte.isLetter, Byte.isDigit, Byte.slash]

theorem ascii_of_identifierStart {b : Byte} (h : b ∈ identifierStart) : b < 0x80 := by
  rw [← isIdentifierStart_iff] at h
  grind [Byte.isLetter]

theorem ascii_of_all {s : Bytes} (h : s.all (fun b => b < 0x80) = true) : ∀ b ∈ s, b < 0x80 := by
  simpa using h

end Grammar

/-- The forms whose lexemes are ASCII. -/
def Literal.isAscii : Literal → Bool
  | natural | number | double | label => true
  | text | path | address => false

theorem Literal.over_ascii {form : Literal} (h : form.isAscii = true) :
    Grammar.Over {b | b < 0x80} form.language := by
  have hdigit : ∀ b ∈ Grammar.digit, b ∈ {b : Byte | b < 0x80} := fun _ => Grammar.ascii_of_digit
  have fixed {s : String} (hs : (Bytes.ascii s).all (fun b => b < 0x80) = true) :
      Grammar.Over {b | b < 0x80} (Grammar.fixed s) :=
    Grammar.over_fixed (Grammar.ascii_of_all hs)
  cases form with
  | text | path | address => cases h
  | natural => exact (fixed (by decide)).mul (Grammar.over_number hdigit)
  | number => exact Grammar.over_number hdigit
  | double => exact Grammar.over_double hdigit (Grammar.ascii_of_all (by decide))
  | label =>
    apply Grammar.Over.add
    · exact (Grammar.over_byte fun _ => Grammar.ascii_of_identifierStart).mul
        (Grammar.over_star_byte fun _ => Grammar.ascii_of_identifierPart)
    · exact ((fixed (by decide)).mul
        (Grammar.over_many_byte (Grammar.ascii_of_all (by decide)))).mul (fixed (by decide))

namespace Applies

variable {rule : Rule} {form : Literal} {lexeme rest : Bytes}

/-- A path or an address goes on to the next white space. -/
theorem head_white {l : Language Byte} (h : Applies (.literal form) lexeme (lexeme ++ rest))
    (hform : form.language = l * Grammar.many (Grammar.byte Grammar.whiteᶜ)) :
    ∀ b ∈ rest.head?, b ∈ Grammar.white := by
  intro b hb
  by_contra hwhite
  -- Otherwise the lexeme with one more byte would be a longer one.
  obtain ⟨tail, rfl⟩ := List.head?_eq_some_iff.1 hb
  have hlonger : lexeme ++ [b] ∈ Rule.language (.literal form) := by
    have hlexeme : lexeme ∈ form.language := h.mem_language
    rw [Rule.language, hform]
    rw [hform] at hlexeme
    obtain ⟨front, hfront, run, hrun, rfl⟩ := hlexeme
    refine ⟨front, hfront, run ++ [b], Grammar.mem_many_byte.2 ⟨by simp, fun c hc => ?_⟩, ?_⟩
    · rcases List.mem_append.1 hc with hc | hc
      · exact (Grammar.mem_many_byte.1 hrun).2 c hc
      · exact List.mem_singleton.1 hc ▸ hwhite
    · exact (List.append_assoc _ _ _).symm
  have hle := h.longest _ h.mem_rules _ hlonger ⟨tail, by simp⟩
  rw [List.length_append, List.length_singleton] at hle
  omega

/-- No code point goes beyond the end of a literal. -/
theorem seam (h : Applies (.literal form) lexeme (lexeme ++ rest)) : Seam lexeme rest := by
  have hmem : lexeme ∈ form.language := h.mem_language
  cases form with
  | text =>
    obtain ⟨t, -, rfl⟩ := Grammar.mem_text_iff.1 hmem
    left
    simp [List.getLast?_cons, Byte.quote]
  | path | address => exact Or.inr fun b hb => Grammar.ascii_of_white (h.head_white rfl b hb)
  | natural | number | double | label =>
    exact Utf8.seam_of_ascii (fun b => Literal.over_ascii rfl lexeme hmem b) rest

/-- A well-formed text is cut by a lexeme at its head into two. -/
theorem wellFormed (h : Applies rule lexeme (lexeme ++ rest))
    (hwell : WellFormed (lexeme ++ rest)) : WellFormed lexeme ∧ WellFormed rest := by
  cases rule with
  | literal form => exact h.seam.wellFormed hwell
  | fixed text kind =>
    obtain rfl : lexeme = text := h.mem_language
    have hlexeme := Rule.wellFormed_of_fixed h.mem_rules
    exact ⟨hlexeme, hlexeme.of_append_left hwell⟩
  | layout form =>
    cases form with
    | whitespace =>
      have hwhite := (Grammar.mem_many_byte.1 h.mem_language).2
      have hascii : ∀ b ∈ lexeme, b < 0x80 := fun b hb => Grammar.ascii_of_white (hwhite b hb)
      exact (Utf8.seam_of_ascii hascii rest).wellFormed hwell
    | comment =>
      obtain ⟨line, rfl, -, hend⟩ := h.comment_ends
      refine Seam.wellFormed (Or.inr fun b hb => ?_) hwell
      rcases hend with rfl | hend
      · cases hb
      · obtain rfl := Option.some.inj (hend.symm.trans hb)
        decide

end Applies

/-- A gap ends between two code points. -/
theorem IsGap.wellFormed {gap rest : Bytes} (h : IsGap gap rest)
    (hwell : WellFormed (gap ++ rest)) : WellFormed rest := by
  induction h with
  | nil => exact hwell
  | @whitespace run gap rest hrun _ ih =>
    rw [List.append_assoc] at hwell
    have hwhite := (Grammar.mem_many_byte.1 hrun).2
    have hascii : ∀ b ∈ run, b < 0x80 := fun b hb => Grammar.ascii_of_white (hwhite b hb)
    exact ih ((Utf8.seam_of_ascii hascii _).wellFormed hwell).2
  | @comment line gap rest hline hend _ ih =>
    rw [List.append_assoc] at hwell
    refine ih (Seam.wellFormed (Or.inr fun b hb => ?_) hwell).2
    rcases hend with hend | hend
    · rw [hend] at hb
      cases hb
    · obtain rfl := Option.some.inj (hend.symm.trans hb)
      decide

end Munch
