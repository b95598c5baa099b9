import Mathlib.Data.Nat.SuccPred
import Mathlib.Order.Nat
import Munch.Proofs.Lexeme

/-!
# The closing quote

Which quote closes a text literal is said by the quotes alone that stand bare, without a backslash
right before them. A scan never passes a bare quote, and it goes on from every other one as long as
there is a later quote. So the first bare quote closes the literal, and the last quote at all does if
no quote is bare.

## Main definitions

* `Text.quotes`, `Text.bareQuotes`: where a text has quotes behind its first byte, and bare ones.
* `Text.closes`: where a literal at the head of a text may end.
-/
namespace Munch

namespace Literal.Text

/-! ## Quotes -/

/-- The indices of the quotes behind the first byte of a text. -/
def quotes (s : Bytes) : Set Nat := {j | 1 ≤ j ∧ s[j]? = some Byte.quote}

/-- Among them the quotes that do not stand right after a backslash. -/
def bareQuotes (s : Bytes) : Set Nat := {j ∈ quotes s | s[j - 1]? ≠ some Byte.backslash}

/-- Among them the quotes with no bare one before them. -/
def closes (s : Bytes) : Set Nat := {j ∈ quotes s | j ∈ lowerBounds (bareQuotes s)}

variable {s t : Bytes} {i j : Nat}

theorem lt_length_of_mem_quotes (h : j ∈ quotes s) : j < s.length :=
  (List.getElem?_eq_some_iff.1 h.2).1

theorem mem_quotes_append (h : j < s.length) : j ∈ quotes (s ++ t) ↔ j ∈ quotes s := by
  simp [quotes, List.getElem?_append_left h]

theorem mem_bareQuotes_append (h : j < s.length) :
    j ∈ bareQuotes (s ++ t) ↔ j ∈ bareQuotes s := by
  have hbefore : j - 1 < s.length := by omega
  simp [bareQuotes, mem_quotes_append h, List.getElem?_append_left hbefore]

theorem quotes_subset_append (s t : Bytes) : quotes s ⊆ quotes (s ++ t) :=
  fun _ hj => (mem_quotes_append (lt_length_of_mem_quotes hj)).2 hj

theorem bareQuotes_subset_append (s t : Bytes) : bareQuotes s ⊆ bareQuotes (s ++ t) :=
  fun _ hj => (mem_bareQuotes_append (lt_length_of_mem_quotes hj.1)).2 hj

theorem mem_closes_append (h : j < s.length) : j ∈ closes (s ++ t) ↔ j ∈ closes s := by
  refine and_congr (mem_quotes_append h) ⟨fun hbound i hi => ?_, fun hbound i hi => ?_⟩
  · exact hbound (bareQuotes_subset_append s t hi)
  · by_cases hlt : i < s.length
    · exact hbound ((mem_bareQuotes_append hlt).1 hi)
    · omega

end Literal.Text

/-! ## Literals end at closing quotes -/

namespace Grammar

open Literal.Text

/-- A text has its quotes behind backslashes if none of them is bare. -/
theorem escaped_iff_bareQuotes {b : Byte} {s : Bytes} :
    Escaped (b == Byte.backslash) s ↔ bareQuotes (b :: s) = ∅ := by
  have hindex : Escaped (b == Byte.backslash) s ↔
      ∀ j : Nat, s[j]? = some Byte.quote → (b :: s)[j]? = some Byte.backslash := by
    induction s generalizing b with
    | nil => simp [Escaped]
    | cons c s ih =>
      rw [Escaped, ih]
      exact Iff.trans (by simp) Nat.and_forall_add_one
  rw [hindex, Set.eq_empty_iff_forall_notMem]
  exact Iff.trans (by simp [bareQuotes, quotes]) Nat.and_forall_add_one

/-- A text literal is a text whose last byte is a quote that may close it. -/
theorem mem_text_iff_closes {w : Bytes} :
    w ∈ text ↔ w.head? = some Byte.quote ∧ w.length - 1 ∈ closes w := by
  rw [mem_text_iff]
  constructor
  · rintro ⟨t, ht, rfl⟩
    have hnone : bareQuotes (Byte.quote :: t) = ∅ := escaped_iff_bareQuotes.1 ht
    refine ⟨rfl, ⟨by simp, by simp⟩, fun i hi => ?_⟩
    by_contra hlt
    have hbare := (mem_bareQuotes_append (s := Byte.quote :: t) (by simpa using hlt)).1 hi
    simp [hnone] at hbare
  · rintro ⟨hhead, hquote, hbound⟩
    obtain ⟨r, rfl⟩ := List.head?_eq_some_iff.1 hhead
    have hr : r ≠ [] := by
      rintro rfl
      simp [quotes] at hquote
    obtain ⟨t, c, rfl⟩ := (List.eq_nil_or_concat' r).resolve_left hr
    obtain rfl : c = Byte.quote := by simpa [quotes] using hquote
    refine ⟨t, escaped_iff_bareQuotes (b := Byte.quote).2 ?_, rfl⟩
    refine Set.eq_empty_iff_forall_notMem.2 fun i hi => ?_
    have hlt := lt_length_of_mem_quotes hi.1
    have hle := hbound (bareQuotes_subset_append _ [Byte.quote] hi)
    simp at hlt hle
    omega

end Grammar

/-! ## The extent -/

namespace Literal.Text

variable {s : Bytes} {j : Nat}

theorem extent_of_isGreatest (hs : s.head? = some Byte.quote) (hj : IsGreatest (closes s) j) :
    extent s = j + 1 := by
  have hlt := lt_length_of_mem_quotes hj.1.1
  refine (Grammar.isLongest_text s).unique ⟨fun w hw hws => ?_, fun _ => ⟨s.take (j + 1), ?_⟩⟩
  · obtain ⟨r, rfl⟩ := hws
    have hclose := (Grammar.mem_text_iff_closes.1 hw).2
    have hlast := lt_length_of_mem_quotes hclose.1
    have hle := hj.2 ((mem_closes_append hlast).2 hclose)
    omega
  · have hlength : (s.take (j + 1)).length = j + 1 := List.length_take_of_le hlt
    refine ⟨Grammar.mem_text_iff_closes.2 ⟨?_, ?_⟩, List.take_prefix _ _, hlength⟩
    · rw [List.head?_take, if_neg (Nat.succ_ne_zero j), hs]
    · rw [hlength, Nat.add_sub_cancel, ← mem_closes_append (t := s.drop (j + 1)) (by omega),
        List.take_append_drop]
      exact hj.1

theorem extent_eq_zero_of_quotes (h : quotes s = ∅) : extent s = 0 := by
  refine (Grammar.isLongest_text s).unique (Grammar.isLongest_zero_iff.2 fun w hw hws => ?_)
  obtain ⟨r, rfl⟩ := hws
  have hclose := (Grammar.mem_text_iff_closes.1 hw).2.1
  have hquote := quotes_subset_append w r hclose
  simp [h] at hquote

/-- The first bare quote closes the literal. -/
theorem isGreatest_closes_of_isLeast (h : IsLeast (bareQuotes s) j) : IsGreatest (closes s) j :=
  ⟨⟨h.1.1, h.2⟩, fun _ hi => hi.2 h.1⟩

theorem closes_of_bareQuotes (h : bareQuotes s = ∅) : closes s = quotes s := by
  simp [closes, h]

theorem exists_isGreatest_quotes (h : (quotes s).Nonempty) : ∃ j, IsGreatest (quotes s) j :=
  BddAbove.exists_isGreatest_of_nonempty
    ⟨s.length, fun _ hj => (lt_length_of_mem_quotes hj).le⟩ h

theorem head?_of_extent (h : extent s ≠ 0) : s.head? = some Byte.quote := by
  cases s with
  | nil => exact absurd rfl h
  | cons b s =>
    by_contra hb
    have hne : b ≠ Byte.quote := by simpa using hb
    exact h (if_neg hne)

section Closed

variable (hs : s.head? = some Byte.quote)
include hs

theorem exists_isLeast_extent (h : (bareQuotes s).Nonempty) :
    ∃ j, IsLeast (bareQuotes s) j ∧ extent s = j + 1 := by
  obtain ⟨j, hj⟩ := BddBelow.exists_isLeast_of_nonempty (OrderBot.bddBelow _) h
  exact ⟨j, hj, extent_of_isGreatest hs (isGreatest_closes_of_isLeast hj)⟩

theorem exists_isGreatest_extent (h : bareQuotes s = ∅) (hquotes : (quotes s).Nonempty) :
    ∃ j, IsGreatest (quotes s) j ∧ extent s = j + 1 := by
  obtain ⟨j, hj⟩ := exists_isGreatest_quotes hquotes
  refine ⟨j, hj, extent_of_isGreatest hs ?_⟩
  rwa [closes_of_bareQuotes h]

end Closed

/-- A literal that is taken at the head of a text ends at its only bare quote, or it has no bare one
and no quote follows it. -/
theorem closing_of_extent {lexeme rest : Bytes} (hne : lexeme ≠ [])
    (h : extent (lexeme ++ rest) = lexeme.length) : lexeme.length - 1 ∈ quotes lexeme ∧
      (bareQuotes lexeme = {lexeme.length - 1} ∨ bareQuotes lexeme = ∅ ∧ Byte.quote ∉ rest) := by
  have hpos := List.length_pos_iff.2 hne
  have hhead := head?_of_extent (s := lexeme ++ rest) (by omega)
  have last_mem {j : Nat} (hj : j ∈ quotes (lexeme ++ rest)) (hlength : lexeme.length = j + 1) :
      j = lexeme.length - 1 ∧ j ∈ quotes lexeme :=
    ⟨by omega, (mem_quotes_append (by omega)).1 hj⟩
  rcases Set.eq_empty_or_nonempty (bareQuotes (lexeme ++ rest)) with hbare | hbare
  · -- A literal is there, so a quote is, and the last one closes it.
    have hquotes : (quotes (lexeme ++ rest)).Nonempty := by
      rw [Set.nonempty_iff_ne_empty]
      intro hempty
      rw [extent_eq_zero_of_quotes hempty] at h
      omega
    obtain ⟨j, hj, hextent⟩ := exists_isGreatest_extent hhead hbare hquotes
    obtain ⟨rfl, hmem⟩ := last_mem hj.1 (h.symm.trans hextent)
    refine ⟨hmem, Or.inr ⟨?_, fun hquote => ?_⟩⟩
    · exact Set.subset_eq_empty (bareQuotes_subset_append lexeme rest) hbare
    · obtain ⟨k, hk⟩ := List.mem_iff_getElem?.1 hquote
      have hlater : lexeme.length + k ∈ quotes (lexeme ++ rest) := by
        refine ⟨by omega, ?_⟩
        rwa [List.getElem?_append_right (by omega), Nat.add_sub_cancel_left]
      have hle := hj.2 hlater
      omega
  · obtain ⟨j, hj, hextent⟩ := exists_isLeast_extent hhead hbare
    obtain ⟨rfl, hmem⟩ := last_mem hj.1.1 (h.symm.trans hextent)
    refine ⟨hmem, Or.inl (Set.eq_singleton_iff_unique_mem.2 ⟨?_, fun i hi => ?_⟩)⟩
    · exact (mem_bareQuotes_append (by omega)).1 hj.1
    · have hlt := lt_length_of_mem_quotes hi.1
      have hle := hj.2 (bareQuotes_subset_append lexeme rest hi)
      omega

end Literal.Text

/-! ## Tokens -/

namespace Finds

variable {source lexeme : Bytes} {offset : Nat} {t : Token}

theorem extent_text (h : Finds source offset (.literal .text) lexeme t) :
    Literal.Text.extent (lexeme ++ source.drop t.span.last) = lexeme.length := by
  rw [← h.drop_first_eq]
  exact (extent_of_longestOf? h.applies.longest?_eq).2

end Finds

namespace Literal.Text

/-- At the head of a text that begins with a quote, a literal ends with the first bare quote. If no
quote is bare, it ends with the last quote, and there is none if there is no other quote. So the
text of a token has its closing quote as its only bare one, or it has no bare one at all and no quote
follows in the source. -/
theorem extent_closed_form :
    (∀ s : Bytes, s.head? = some Byte.quote →
      ((bareQuotes s).Nonempty → ∃ j, IsLeast (bareQuotes s) j ∧ extent s = j + 1) ∧
      (bareQuotes s = ∅ → (quotes s).Nonempty →
        ∃ j, IsGreatest (quotes s) j ∧ extent s = j + 1) ∧
      (quotes s = ∅ → extent s = 0)) ∧
    ∀ (source : Bytes) (n : Nat) (t : Token),
      .ok t ∈ (Lexer.ofSource source).pull n → t.kind = .text →
        let lexeme := source.slice t.span.first t.span.last
        lexeme.length - 1 ∈ quotes lexeme ∧
          (bareQuotes lexeme = {lexeme.length - 1} ∨
            bareQuotes lexeme = ∅ ∧ Byte.quote ∉ source.drop t.span.last) := by
  refine ⟨fun s hs => ⟨exists_isLeast_extent hs, exists_isGreatest_extent hs,
    extent_eq_zero_of_quotes⟩, fun source n t hmem htext => ?_⟩
  intro lexeme
  rw [← Lexer.place_zero] at hmem
  have heof : t.kind ≠ .eof := by simp [htext]
  obtain ⟨offset, rule, _, -, hfinds⟩ :=
    Lexer.exists_finds_of_mem_pull (Nat.zero_le _) hmem heof
  obtain rfl : lexeme = _ := hfinds.slice_eq
  obtain rfl := hfinds.rule_eq_text_iff.2 htext
  exact closing_of_extent hfinds.applies.ne_nil hfinds.extent_text

/-- Behind two backslashes a quote is not bare. It closes the literal if no quote follows, and it
does not close it in front of a bare one. An opening quote alone opens no literal. -/
theorem extent_closed_form_backslashes :
    let bare := Bytes.ascii "\"\\\\\" \"x"
    let source := Bytes.ascii "\"\\\\\" x"
    let opened := Bytes.ascii "\"x"
    let t : Token := ⟨.text, .text [Byte.backslash], ⟨0, 4⟩, ⟨1, 1⟩⟩
    let lexeme := source.slice 0 4
    ((bareQuotes bare).Nonempty ∧ ∃ j, IsLeast (bareQuotes bare) j ∧ extent bare = j + 1) ∧
    (bareQuotes source = ∅ ∧ (quotes source).Nonempty ∧
      ∃ j, IsGreatest (quotes source) j ∧ extent source = j + 1) ∧
    (quotes opened = ∅ ∧ extent opened = 0) ∧
    .ok t ∈ (Lexer.ofSource source).pull 1 ∧ t.kind = .text ∧
      lexeme.length - 1 ∈ quotes lexeme ∧ (bareQuotes lexeme = {lexeme.length - 1} ∨
        bareQuotes lexeme = ∅ ∧ Byte.quote ∉ source.drop t.span.last) := by
  intro bare source opened t lexeme
  have hbare : (bareQuotes bare).Nonempty := ⟨5, ⟨by decide, by decide⟩, by decide⟩
  have hquotes : (quotes source).Nonempty := ⟨3, by decide, by decide⟩
  have hnone : bareQuotes source = ∅ := by
    refine Set.eq_empty_iff_forall_notMem.2 fun j hj => ?_
    have hlt : j < 6 := lt_length_of_mem_quotes hj.1
    have hall : ∀ j < 6, 1 ≤ j → source[j]? = some Byte.quote →
        source[j - 1]? = some Byte.backslash := by decide
    exact hj.2 (hall j hlt hj.1.1 hj.1.2)
  have hempty : quotes opened = ∅ := by
    refine Set.eq_empty_iff_forall_notMem.2 fun j hj => ?_
    have hlt : j < 2 := lt_length_of_mem_quotes hj
    have hall : ∀ j < 2, 1 ≤ j → opened[j]? ≠ some Byte.quote := by decide
    exact hall j hlt hj.1 hj.2
  have hlongest : longest? source = some ⟨.literal .text, 4⟩ := by decide +kernel
  have hread : Literal.read .text lexeme = .ok (.text [Byte.backslash]) := by decide +kernel
  have hmem : .ok t ∈ (Lexer.ofSource source).pull 1 :=
    Lexer.mem_pull_of_yields (applies_of_longest? hlongest).1 (.literal hread)
  obtain ⟨hclosed, htokens⟩ := extent_closed_form
  exact ⟨⟨hbare, (hclosed bare rfl).1 hbare⟩,
    ⟨hnone, hquotes, (hclosed source rfl).2.1 hnone hquotes⟩,
    ⟨hempty, (hclosed opened rfl).2.2 hempty⟩, hmem, rfl, htokens source 1 t hmem rfl⟩

end Literal.Text

end Munch
