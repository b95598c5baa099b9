import Munch.Proofs.Gap
import Munch.Proofs.Tiling

/-!
# Tokens and their lexemes

A token before the end is what a rule makes of the lexeme that it takes behind a gap. This says all
about the scan that yields the token: `Cursor.exists_finds_of_scan` and `Finds.scan_eq` are converse
to each other. So a token depends on the gap and the lexeme alone, as long as the rule still applies
in front of what follows. It applies in front of nothing, which makes a lexeme that stands alone a
source of one token.

## Main definitions

* `Rule.Yields`: a rule makes a kind and a payload from a lexeme.
* `Finds`: what stands at an offset of a source from which a token is read.
* `Lexer.place`: a lexer at an offset of a source.
-/
namespace Munch

open Grammar (white)

/-! ## What a token says -/

/-- What a token says: its kind and its payload. -/
def Token.content (t : Token) : Kind × Payload := (t.kind, t.payload)

/-- The rule makes a token of the kind and the payload from the lexeme. -/
inductive Rule.Yields : Rule → Bytes → Kind → Payload → Prop
  | fixed (text lexeme : Bytes) (kind : Kind) : (fixed text kind).Yields lexeme kind .none
  | literal {form : Literal} {lexeme : Bytes} {payload : Payload}
      (h : form.read lexeme = .ok payload) : (literal form).Yields lexeme form.kind payload

theorem Rule.Yields.kind?_eq {rule : Rule} {lexeme : Bytes} {kind : Kind} {payload : Payload}
    (h : rule.Yields lexeme kind payload) : rule.kind? = some kind := by
  cases h <;> rfl

/-- The kind of a literal belongs to its rule alone. -/
theorem Rule.eq_literal_of_kind? (form : Literal) :
    ∀ rule ∈ rules, rule.kind? = some form.kind → rule = .literal form := by
  cases form <;> decide

theorem Cursor.scan_of_yields {c : Cursor} {rule : Rule} {lexeme : Bytes} {kind : Kind}
    {payload : Payload} (h : Applies rule lexeme c.rest)
    (hyields : rule.Yields lexeme kind payload) :
    c.scan = (.ok (c.token lexeme.length kind payload), c.advance lexeme.length) := by
  cases hyields with
  | fixed => exact scan_of_applies_fixed h
  | literal hread => exact scan_of_read h hread

/-- A token that is read is the end of the source or what a rule makes of a lexeme. -/
theorem Cursor.Reads.token_cases {c c' : Cursor} {t : Token} (h : c.Reads (.ok t, c')) :
    (c.rest = [] ∧ t = c.endToken ∧ c' = c) ∨
    ∃ rule lexeme kind payload, Applies rule lexeme c.rest ∧ rule.Yields lexeme kind payload ∧
      t = c.token lexeme.length kind payload ∧ c' = c.advance lexeme.length := by
  generalize houtcome : (Except.ok t, c') = outcome at h
  cases h with
  | unmatched | refused => cases houtcome
  | atEnd hend =>
    cases houtcome
    exact Or.inl ⟨hend, rfl, rfl⟩
  | fixed happlies =>
    cases houtcome
    exact Or.inr ⟨_, _, _, _, happlies, .fixed _ _ _, rfl, rfl⟩
  | literal happlies hread =>
    cases houtcome
    exact Or.inr ⟨_, _, _, _, happlies, .literal hread, rfl, rfl⟩

/-! ## Slices -/

namespace Bytes

variable {source : Bytes} {first last : Nat}

theorem slice_append_drop (h : first ≤ last) :
    source.slice first last ++ source.drop last = source.drop first := by
  have hdrop : source.drop last = (source.drop first).drop (last - first) := by
    rw [List.drop_drop, Nat.add_sub_cancel' h]
  rw [hdrop, slice, List.take_append_drop]

theorem length_slice (h : last ≤ source.length) :
    (source.slice first last).length = last - first := by
  simp only [slice, List.length_take, List.length_drop]
  omega

/-- What stands behind a slice has no part in it. -/
theorem slice_append_left {front back : Bytes} (h : last ≤ front.length) :
    (front ++ back).slice first last = front.slice first last := by
  rcases Nat.le_total first last with hle | hle
  · have hfirst : first ≤ front.length := hle.trans h
    rw [slice, slice, List.drop_append_of_le_length hfirst, List.take_append_of_le_length]
    rw [List.length_drop]
    omega
  · simp [slice, Nat.sub_eq_zero_of_le hle]

end Bytes

/-! ## What is found -/

/-- From an offset of a source a gap leads to the token, which a rule makes of the lexeme that it
takes there. -/
structure Finds (source : Bytes) (offset : Nat) (rule : Rule) (lexeme : Bytes) (t : Token) :
    Prop where
  le : offset ≤ t.span.first
  gap : IsGap (source.slice offset t.span.first) (source.drop t.span.first)
  applies : Applies rule lexeme (source.drop t.span.first)
  yields : rule.Yields lexeme t.kind t.payload
  last : t.span.last = t.span.first + lexeme.length
  position : t.position = Position.after (source.take t.span.first)

namespace Finds

variable {source lexeme : Bytes} {offset : Nat} {rule : Rule} {t : Token}

theorem kind?_ne_none (h : Finds source offset rule lexeme t) : rule.kind? ≠ none := by
  simp [h.yields.kind?_eq]

theorem kind_ne_eof (h : Finds source offset rule lexeme t) : t.kind ≠ .eof := by
  intro heof
  exact kind?_ne_eof rule h.applies.mem_rules (h.yields.kind?_eq.trans (congrArg some heof))

/-- A token of the kind of a literal is made by the rule for this literal. -/
theorem rule_eq_literal_iff (h : Finds source offset rule lexeme t) (form : Literal) :
    rule = .literal form ↔ t.kind = form.kind := by
  constructor
  · rintro rfl
    exact (Option.some.inj h.yields.kind?_eq).symm
  · intro hkind
    exact Rule.eq_literal_of_kind? form rule h.applies.mem_rules
      (h.yields.kind?_eq.trans (congrArg some hkind))

theorem rule_eq_text_iff (h : Finds source offset rule lexeme t) :
    rule = .literal .text ↔ t.kind = .text := h.rule_eq_literal_iff .text

theorem first_lt_last (h : Finds source offset rule lexeme t) : t.span.first < t.span.last := by
  have hpos := List.length_pos_iff.2 h.applies.ne_nil
  have hlast := h.last
  omega

theorem last_le (h : Finds source offset rule lexeme t) : t.span.last ≤ source.length := by
  have happlies : Applies rule lexeme (Cursor.place source t.span.first).rest := h.applies
  rw [h.last]
  exact (Cursor.span_of_applies happlies).2

theorem drop_first_eq (h : Finds source offset rule lexeme t) :
    source.drop t.span.first = lexeme ++ source.drop t.span.last := by
  obtain ⟨rest, hrest⟩ := h.applies.head
  rw [h.last, ← List.drop_drop, ← hrest, List.drop_left]

theorem slice_eq (h : Finds source offset rule lexeme t) :
    source.slice t.span.first t.span.last = lexeme := by
  rw [Bytes.slice, h.drop_first_eq, h.last, Nat.add_sub_cancel_left, List.take_left]

/-- All bytes of the lexeme and all behind it are bytes behind the offset. -/
theorem subset (h : Finds source offset rule lexeme t) :
    lexeme ⊆ source.drop offset ∧ source.drop t.span.last ⊆ source.drop offset := by
  rw [← Bytes.slice_append_drop h.le, h.drop_first_eq]
  simp

/-- After a text that closes after a backslash there is no quote in the source. -/
theorem quote_notMem (h : Finds source offset rule lexeme t) (hrule : rule = .literal .text)
    (hcloses : Literal.Text.ClosesEscaped lexeme) : Byte.quote ∉ source.drop t.span.last := by
  subst hrule
  exact (h.drop_first_eq ▸ h.applies).quote_notMem hcloses

/-- What is found is what a scan yields. -/
theorem scan_eq (h : Finds source offset rule lexeme t) :
    (Cursor.place source offset).scan = (.ok t, .place source t.span.last) := by
  have hfirst := h.first_lt_last.le.trans h.last_le
  have hgap := Cursor.scan_of_gap h.gap (c := .place source offset)
    (Bytes.slice_append_drop h.le).symm
  rw [hgap, Bytes.length_slice hfirst, Cursor.advance_place, Nat.add_sub_cancel' h.le,
    Cursor.scan_of_yields h.applies h.yields, Cursor.advance_place, ← h.last]
  obtain ⟨kind, payload, ⟨first, last⟩, position⟩ := t
  obtain rfl : last = first + lexeme.length := h.last
  obtain rfl : position = Position.after (source.take first) := h.position
  simp [Cursor.token, Cursor.position_place]

end Finds

/-- A scan that yields a token before the end has found it. -/
theorem Cursor.exists_finds_of_scan {source : Bytes} {offset : Nat} {t : Token} {c' : Cursor}
    (h : (place source offset).scan = (.ok t, c')) (ht : t.kind ≠ .eof)
    (hoffset : offset ≤ source.length) :
    c' = place source t.span.last ∧ ∃ rule lexeme, Finds source offset rule lexeme t := by
  obtain ⟨stop, hle, -, hgap, hreads⟩ := exists_slice_reads hoffset
  rw [h] at hreads
  rcases hreads.token_cases with
    ⟨-, rfl, -⟩ | ⟨rule, lexeme, kind, payload, happlies, hyields, rfl, rfl⟩
  · exact absurd rfl ht
  · refine ⟨by simp [token], rule, lexeme, ?_, ?_, ?_, hyields, rfl, ?_⟩ <;>
      simp only [token, offset_place, position_place]
    exacts [hle, hgap, happlies]

/-- What is found up to some byte is found also if white space follows there instead. -/
theorem Finds.before_white {front back back' lexeme : Bytes} {offset : Nat} {rule : Rule}
    {t : Token} {b : Byte} (h : Finds (front ++ back) offset rule lexeme t)
    (hlast : t.span.last ≤ front.length) (hb : b ∈ white)
    (htext : rule = .literal .text → Literal.Text.ClosesEscaped lexeme → Byte.quote ∉ back') :
    Finds (front ++ b :: back') offset rule lexeme t := by
  have hlt := h.first_lt_last
  have hlexeme : t.span.last = t.span.first + lexeme.length := h.last
  have hfirst : t.span.first ≤ front.length := by omega
  have hdrop (s : Bytes) : (front ++ s).drop t.span.first = front.drop t.span.first ++ s :=
    List.drop_append_of_le_length hfirst
  have htake (s : Bytes) : (front ++ s).take t.span.first = front.take t.span.first :=
    List.take_append_of_le_length hfirst
  have hgap := h.gap
  have happlies := h.applies
  have hposition := h.position
  rw [hdrop] at hgap happlies
  rw [Bytes.slice_append_left hfirst] at hgap
  rw [htake] at hposition
  refine ⟨h.le, ?_, ?_, h.yields, hlexeme, by rw [htake, hposition]⟩
  · -- The lexeme is not empty, so the same byte follows the gap.
    have hne : front.drop t.span.first ≠ [] := by
      intro hnil
      have := List.drop_eq_nil_iff.1 hnil
      omega
    rw [Bytes.slice_append_left hfirst, hdrop]
    obtain ⟨c, rest, hrest⟩ := List.exists_cons_of_ne_nil hne
    exact hgap.of_head (Or.inl (by simp [hrest]))
  · have hhead : lexeme <+: front.drop t.span.first := by
      refine List.prefix_of_prefix_length_le happlies.head (List.prefix_append _ _) ?_
      rw [List.length_drop]
      omega
    rw [hdrop]
    exact (happlies.of_prefix hhead (List.prefix_append _ _)).before_white h.kind?_ne_none hb htext

/-! ## Lexers -/

namespace Lexer

/-- A lexer that stands at an offset of a source. -/
def place (source : Bytes) (offset : Nat) : Lexer := ⟨source, .place source offset, none⟩

theorem place_zero (source : Bytes) : place source 0 = ofSource source := by
  rw [place, Cursor.place, Cursor.advance_zero]
  rfl

variable {source lexeme : Bytes} {rule : Rule} {t : Token}

theorem next_of_finds {offset : Nat} (h : Finds source offset rule lexeme t) :
    (place source offset).next = (.ok t, place source t.span.last) :=
  next_of_scan_ok rfl h.scan_eq

theorem exists_finds_of_next {offset : Nat} (hoffset : offset ≤ source.length)
    (h : (place source offset).next.1 = .ok t) (ht : t.kind ≠ .eof) :
    ∃ rule lexeme, Finds source offset rule lexeme t := by
  rcases hscan : (Cursor.place source offset).scan with ⟨d | u, c'⟩
  · rw [next_of_scan_error rfl hscan] at h
    cases h
  · rw [next_of_scan_ok rfl hscan] at h
    cases h
    exact (Cursor.exists_finds_of_scan hscan ht hoffset).2

/-- Every token that a lexer yields before the end was found somewhere behind the lexer. -/
theorem exists_finds_of_mem_pull {offset n : Nat} (hoffset : offset ≤ source.length)
    (h : .ok t ∈ (place source offset).pull n) (ht : t.kind ≠ .eof) :
    ∃ first rule lexeme, offset ≤ first ∧ Finds source first rule lexeme t := by
  induction n generalizing offset with
  | zero => cases h
  | succ n ih =>
    rcases hnext : (place source offset).next.1 with d | u
    · rw [pull, hnext, pull_of_failure (failure_of_next hnext), ← List.replicate_succ] at h
      cases List.eq_of_mem_replicate h
    · have hu := kind_ne_eof_of_mem_pull rfl hnext h ht
      obtain ⟨rule, lexeme, hfinds⟩ := exists_finds_of_next hoffset hnext hu
      rw [pull, next_of_finds hfinds] at h
      rcases List.mem_cons.1 h with h | h
      · cases h
        exact ⟨offset, rule, lexeme, le_rfl, hfinds⟩
      · obtain ⟨first, rule', lexeme', hle, hfinds'⟩ := ih hfinds.last_le h
        have hlt := hfinds.first_lt_last
        exact ⟨first, rule', lexeme', (hfinds.le.trans hlt.le).trans hle, hfinds'⟩

/-- The token that a rule makes of the lexeme at the head of a source is the first that is read. -/
theorem pull_one_of_yields {kind : Kind} {payload : Payload} (h : Applies rule lexeme source)
    (hyields : rule.Yields lexeme kind payload) :
    (ofSource source).pull 1 = [.ok ⟨kind, payload, ⟨0, lexeme.length⟩, .start⟩] := by
  have hscan := Cursor.scan_of_yields (c := .ofSource source) h hyields
  rw [pull, next_of_scan_ok rfl hscan, Cursor.token, Cursor.ofSource, Nat.zero_add, pull]

theorem mem_pull_of_yields {kind : Kind} {payload : Payload} (h : Applies rule lexeme source)
    (hyields : rule.Yields lexeme kind payload) :
    .ok ⟨kind, payload, ⟨0, lexeme.length⟩, .start⟩ ∈ (ofSource source).pull 1 := by
  rw [pull_one_of_yields h hyields]
  exact List.mem_singleton_self _

/-- A lexeme that stands alone is read as one token. -/
theorem drain_of_applies {kind : Kind} {payload : Payload} (h : Applies rule lexeme lexeme)
    (hyields : rule.Yields lexeme kind payload) : (ofSource lexeme).drain.1 =
      .ok [⟨kind, payload, ⟨0, lexeme.length⟩, .start⟩,
        ⟨.eof, .none, ⟨lexeme.length, lexeme.length⟩, Position.after lexeme⟩] := by
  let t : Token := ⟨kind, payload, ⟨0, lexeme.length⟩, .start⟩
  have hfinds : Finds lexeme 0 rule lexeme t :=
    ⟨Nat.zero_le _, .nil _, h, hyields, (Nat.zero_add _).symm, rfl⟩
  have hend : (Cursor.place lexeme lexeme.length).rest = [] := List.drop_length
  have hrun : (ofSource lexeme).cursor.Run [t]
      (.ok (Cursor.place lexeme lexeme.length).endToken) (.place lexeme lexeme.length) := by
    rw [← place_zero]
    refine .token hfinds.scan_eq hfinds.kind_ne_eof (.stop (Cursor.scan_of_rest_nil hend) ?_)
    rintro _ ⟨⟩
    rfl
  rw [hrun.drain_eq rfl]
  simp [Cursor.endToken, Cursor.position_place, t]

/-- Every lexeme stands on its own. If it is taken out of its source, it is read as one token of the
same kind and payload, which begins at the start. -/
theorem drain_lexeme {n : Nat} (h : .ok t ∈ (ofSource source).pull n) (ht : t.kind ≠ .eof) :
    let lexeme := source.slice t.span.first t.span.last
    (ofSource lexeme).drain.1 =
      .ok [⟨t.kind, t.payload, ⟨0, t.span.last - t.span.first⟩, ⟨1, 1⟩⟩,
        ⟨.eof, .none, ⟨lexeme.length, lexeme.length⟩, Position.after lexeme⟩] := by
  intro lexeme
  rw [← place_zero] at h
  obtain ⟨offset, rule, _, -, hfinds⟩ := exists_finds_of_mem_pull (Nat.zero_le _) h ht
  obtain rfl : lexeme = _ := hfinds.slice_eq
  have hlength : t.span.last - t.span.first = lexeme.length := by
    rw [hfinds.last, Nat.add_sub_cancel_left]
  rw [hlength]
  exact drain_of_applies hfinds.applies.alone hfinds.yields

/-- The number in `1.e`, where no double is complete, is the number that stands alone. -/
theorem drain_lexeme_number :
    let t : Token := ⟨.number, .natural ⟨[1]⟩, ⟨0, 1⟩, ⟨1, 1⟩⟩
    .ok t ∈ (ofSource (Bytes.ascii "1.e")).pull 1 ∧ t.kind ≠ .eof ∧
      (ofSource (Bytes.ascii "1")).drain.1 = .ok [t, ⟨.eof, .none, ⟨1, 1⟩, ⟨1, 2⟩⟩] := by
  intro t
  have hlongest : longest? (Bytes.ascii "1.e") = some ⟨.literal .number, 1⟩ := by decide +kernel
  have hread : Literal.read .number (Bytes.ascii "1") = .ok (.natural ⟨[1]⟩) := by decide +kernel
  have hmem : .ok t ∈ (ofSource (Bytes.ascii "1.e")).pull 1 :=
    mem_pull_of_yields (applies_of_longest? hlongest).1 (.literal hread)
  exact ⟨hmem, by decide, drain_lexeme hmem (by decide)⟩

end Lexer
end Munch
