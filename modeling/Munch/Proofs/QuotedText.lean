import Munch.Proofs.RenderedToken
import Munch.Proofs.Unquoting

/-!
# Quoted texts in a source

A quoted text is read back as the text, also at the head of a longer source, unless its closing
quote stands after a backslash and a later quote closes it instead. Quoting writes every byte that
is not ASCII as it is, so it keeps code points and moves the fault of an ill-formed text by what the
escapes in front of it add.
-/
namespace Munch

open Utf8 (WellFormed IsCodePoint)

namespace Literal.Text

variable {point s : Bytes} {index : Nat}

/-! ## Ill-formed texts -/

/-- Bytes that are not ASCII at the head of an escaped text stand at the head of the text. -/
theorem prefix_of_prefix_flatMap_escape (hpoint : ∀ b ∈ point, ¬ b < 0x80)
    (h : point <+: s.flatMap escape ++ [Byte.quote]) : point <+: s := by
  induction s generalizing point with
  | nil =>
    cases point with
    | nil => exact List.prefix_rfl
    | cons b point =>
      obtain ⟨rfl, -⟩ := List.cons_prefix_cons.1 h
      exact absurd (by decide) (hpoint Byte.quote (by simp))
  | cons c s ih =>
    cases point with
    | nil => exact List.nil_prefix
    | cons b point =>
      obtain ⟨hb, hrest⟩ := List.forall_mem_cons.1 hpoint
      rw [List.flatMap_cons, List.append_assoc] at h
      rcases escape_cases c with ⟨code, hescape, -⟩ | ⟨hescape, -, -⟩
      · rw [hescape] at h
        obtain ⟨rfl, -⟩ := List.cons_prefix_cons.1 h
        exact absurd (by decide) hb
      · rw [hescape] at h
        obtain ⟨rfl, hs⟩ := List.cons_prefix_cons.1 h
        exact List.cons_prefix_cons.2 ⟨rfl, ih hrest hs⟩

/-- Escaping makes no code point where none stands. -/
theorem codePointLength?_flatMap_escape (hs : s ≠ []) (h : Utf8.codePointLength? s = none) :
    Utf8.codePointLength? (s.flatMap escape ++ [Byte.quote]) = none := by
  obtain ⟨c, t, rfl⟩ := List.exists_cons_of_ne_nil hs
  have hc : ¬ c < 0x80 := by
    intro hascii
    have hhead := Utf8.codePointLength?_append (Utf8.isCodePoint_ascii hascii) t
    rw [List.singleton_append, h] at hhead
    cases hhead
  rw [List.flatMap_cons, escape_of_not_ascii hc]
  by_contra hsome
  obtain ⟨n, hn⟩ := Option.ne_none_iff_exists'.1 hsome
  have hpoint := Utf8.isCodePoint_take hn
  -- The first byte is not ASCII, so no other byte of the code point is.
  have hmem : c ∈ ([c] ++ t.flatMap escape ++ [Byte.quote]).take n := by
    obtain ⟨k, rfl⟩ := Nat.exists_eq_succ_of_ne_zero (Nat.ne_of_gt (Utf8.codePointLength?_pos hn))
    simp
  have hnot : ∀ b ∈ ([c] ++ t.flatMap escape ++ [Byte.quote]).take n, ¬ b < 0x80 := by
    intro b hb hascii
    rw [hpoint.eq_of_ascii_mem hb hascii] at hmem
    exact hc (List.mem_singleton.1 hmem ▸ hascii)
  have hprefix := List.take_prefix n ([c] ++ t.flatMap escape ++ [Byte.quote])
  rw [← escape_of_not_ascii hc, ← List.flatMap_cons] at hprefix hpoint hnot
  obtain ⟨rest, hrest⟩ := prefix_of_prefix_flatMap_escape hnot hprefix
  have hhead := Utf8.codePointLength?_append hpoint rest
  rw [hrest, h] at hhead
  cases hhead

/-- The fault of a quoted text stands behind the escaped bytes in front of the fault of the text. -/
theorem firstFault?_quote (h : Utf8.firstFault? s = some index) :
    Utf8.firstFault? (quote s) = some ((quote (s.take index)).length - 1) := by
  obtain ⟨hlt, hwell, hnone⟩ := Utf8.firstFault?_eq_some_iff.1 h
  have hne : s.drop index ≠ [] := by simpa using hlt
  let front := Byte.quote :: (s.take index).flatMap escape
  let back := (s.drop index).flatMap escape ++ [Byte.quote]
  have hsplit : quote s = front ++ back := by
    rw [List.cons_append, ← List.append_assoc, ← List.flatMap_append, List.take_append_drop, quote]
  have hlength : (quote (s.take index)).length - 1 = front.length := by simp [quote, front]
  rw [hlength, hsplit, Utf8.firstFault?_eq_some_iff, List.take_left, List.drop_left]
  refine ⟨by simp [back], ?_, codePointLength?_flatMap_escape hne hnone⟩
  exact Utf8.wellFormed_ascii_cons (by decide) (wellFormed_flatMap_escape hwell)

theorem unquote_quote_of_fault (h : Utf8.firstFault? s = some index) :
    unquote (quote s) = .error ⟨.illFormedText, (quote (s.take index)).length - 1⟩ :=
  unquote_of_firstFault? (isQuoted_quote s) (firstFault?_quote h)

end Literal.Text

/-! ## In a source -/

namespace Lexer

open Literal.Text

variable {s r : Bytes}

/-- A quoted text at the head of a source is the first token, unless the text ends in a backslash
and a quote follows. -/
theorem next_quote_append_iff (h : WellFormed s) :
    (∃ t, (ofSource (quote s ++ r)).next.1 = .ok t ∧ t.content = (.text, .text s) ∧
        t.span = ⟨0, (quote s).length⟩) ↔
      s.getLast? ≠ some Byte.backslash ∨ Byte.quote ∉ r := by
  constructor
  · rintro ⟨t, hnext, hcontent, hspan⟩
    by_contra hnot
    obtain ⟨hlast, hquote⟩ := not_or.1 hnot
    have hkind : t.kind = .text := congrArg Prod.fst hcontent
    rw [← place_zero] at hnext
    obtain ⟨rule, lexeme, hfinds⟩ :=
      exists_finds_of_next (Nat.zero_le _) hnext (by simp [hkind])
    have hlexeme : lexeme = quote s := by
      rw [← hfinds.slice_eq, hspan]
      simp [Bytes.slice]
    subst hlexeme
    have hcloses := closesEscaped_quote_iff.2 (not_not.1 hlast)
    have hnone := hfinds.quote_notMem (hfinds.rule_eq_text_iff.2 hkind) hcloses
    rw [hspan, List.drop_left] at hnone
    exact hquote hnone
  · intro hquote
    have happlies : Applies (.literal .text) (quote s) (quote s ++ r) :=
      (Literal.applies_quote s).text_append fun hcloses =>
        hquote.resolve_left (not_not.2 (closesEscaped_quote_iff.1 hcloses))
    have hread : Literal.read .text (quote s) = .ok (.text s) := by
      rw [Literal.read, unquote_quote h]
      rfl
    have hscan := Cursor.scan_of_yields (c := .ofSource (quote s ++ r)) happlies (.literal hread)
    rw [next_of_scan_ok rfl hscan]
    exact ⟨_, rfl, rfl, by simp [Cursor.token, Cursor.ofSource]⟩

/-- A quoted text that is ill-formed is refused at its fault. -/
theorem next_quote_of_fault {index : Nat} (h : Utf8.firstFault? s = some index) :
    ∃ d, (ofSource (quote s)).next.1 = .error d ∧ d.kind = .invalidUtf8 ∧
      d.offset = (quote (s.take index)).length - 1 := by
  have hlt := (Utf8.firstFault?_eq_some_iff.1 (firstFault?_quote h)).1
  have hread : Literal.read .text (quote s) =
      .error ⟨.illFormedText, (quote (s.take index)).length - 1⟩ := by
    rw [Literal.read, unquote_quote_of_fault h]
    rfl
  have hscan := Cursor.scan_of_refused (c := .ofSource (quote s)) (Literal.applies_quote s) hread
  rw [next_of_scan_error rfl hscan]
  exact ⟨_, rfl, rfl, (Nat.zero_add _).trans (Nat.min_eq_left hlt.le)⟩

/-- Quoting is undone by decoding, and in a source by the scan as long as no later quote closes the
literal. What is wrong with an ill-formed text is found behind the bytes that its well-formed head
is written with. -/
theorem next_quote_exact (s : Bytes) :
    (Utf8.IsText s → unquote (quote s) = .ok s ∧ ∀ r : Bytes,
      ((∃ t, (ofSource (quote s ++ r)).next.1 = .ok t ∧ t.content = (.text, .text s) ∧
          t.span = ⟨0, (quote s).length⟩) ↔
        s.getLast? ≠ some Byte.backslash ∨ Byte.quote ∉ r)) ∧
    ∀ index, Utf8.firstFault? s = some index →
      RefusedAt (unquote (quote s)) .invalidUtf8 ((quote (s.take index)).length - 1) ∧
      ∃ d, (ofSource (quote s)).next.1 = .error d ∧ d.kind = .invalidUtf8 ∧
        d.offset = (quote (s.take index)).length - 1 := by
  refine ⟨fun htext => ?_, fun index hfault => ⟨?_, next_quote_of_fault hfault⟩⟩
  · have hwell := Utf8.isText_iff_wellFormed.1 htext
    exact ⟨unquote_quote hwell, fun r => next_quote_append_iff hwell⟩
  · exact ⟨.illFormedText, unquote_quote_of_fault hfault, rfl⟩

/-- A backslash before a bare quote, and a byte that begins no character behind a line feed. -/
theorem next_quote_exact_backslash :
    let slash := [Byte.backslash]
    let broken : Bytes := [0x0A, 0xFF]
    Utf8.IsText slash ∧ unquote (quote slash) = .ok slash ∧
      ¬ (∃ t, (ofSource (quote slash ++ [Byte.quote])).next.1 = .ok t ∧
        t.content = (.text, .text slash) ∧ t.span = ⟨0, 4⟩) ∧
      Utf8.firstFault? broken = some 1 ∧ RefusedAt (unquote (quote broken)) .invalidUtf8 3 := by
  intro slash broken
  have htext : Utf8.IsText slash := Utf8.isText_iff_wellFormed.2
    (Utf8.wellFormed_ascii_cons (by decide) .nil)
  have hfault : Utf8.firstFault? broken = some 1 := by
    simp [broken, Utf8.firstFault?, Utf8.faultFrom, Utf8.codePointLength?, Utf8.followers,
      Utf8.matched]
  obtain ⟨hread, hnext⟩ := (next_quote_exact slash).1 htext
  refine ⟨htext, hread, fun h => ?_, hfault, ((next_quote_exact broken).2 1 hfault).1⟩
  exact absurd ((hnext [Byte.quote]).1 h) (by decide)

end Lexer
end Munch
