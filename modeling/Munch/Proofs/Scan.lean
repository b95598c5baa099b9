import Munch.Cursor
import Munch.Proofs.RuleChoice

/-!
# One scan

A scan passes a gap of white space and comments and then stops in one of five ways. The
theorem `Cursor.exists_gap_reads` says all that a scan can do; what holds of every token and
every diagnostic is read off from it. `Cursor.scan_of_applies` and its companions go the other
way, from what stands at a cursor to what the scan does.

## Main definitions

* `IsGap`: a sequence of white space and comments in front of a text.
* `Cursor.Reads`: the ways in which a scan stops.
* `Cursor.place`: the cursor at an offset of a source.
-/
namespace Munch

/-! ## Gaps -/

/-- The first text is a sequence of runs of white space and comments, if the second text
follows. A comment goes on to the next line feed or to the end. -/
inductive IsGap : Bytes → Bytes → Prop
  | nil (rest : Bytes) : IsGap [] rest
  | whitespace {run gap rest : Bytes} (hrun : run ∈ Grammar.whitespace) (h : IsGap gap rest) :
      IsGap (run ++ gap) rest
  | comment {line gap rest : Bytes} (hline : Byte.newline ∉ line)
      (hend : gap ++ rest = [] ∨ (gap ++ rest).head? = some Byte.newline) (h : IsGap gap rest) :
      IsGap (Bytes.ascii "--" ++ line ++ gap) rest

/-- A comment that applies goes on to the end of its line. -/
theorem Applies.comment_ends {lexeme rest : Bytes}
    (h : Applies (.layout .comment) lexeme (lexeme ++ rest)) :
    ∃ line, lexeme = Bytes.ascii "--" ++ line ∧ Byte.newline ∉ line ∧
      (rest = [] ∨ rest.head? = some Byte.newline) := by
  obtain ⟨_, rfl, line, hline, hlexeme⟩ := h.mem_language
  replace hlexeme : lexeme = Bytes.ascii "--" ++ line := hlexeme.symm
  have hline := Grammar.mem_star_byte.1 hline
  refine ⟨line, hlexeme, fun hnew => hline _ hnew rfl, ?_⟩
  cases rest with
  | nil => exact Or.inl rfl
  | cons b rest =>
    -- Otherwise the comment with one more byte would be a longer lexeme.
    by_contra hb
    have hlonger : lexeme ++ [b] ∈ Rule.language (.layout .comment) := by
      refine ⟨_, rfl, line ++ [b], Grammar.mem_star_byte.2 fun c hc => ?_, ?_⟩
      · rcases List.mem_append.1 hc with hc | hc
        · exact hline c hc
        · obtain rfl := List.mem_singleton.1 hc
          exact fun hnew => hb (Or.inr (congrArg some hnew))
      · exact (List.append_assoc _ _ _).symm.trans (congrArg (· ++ [b]) hlexeme.symm)
    have hle := h.longest _ h.mem_rules _ hlonger ⟨rest, by simp⟩
    rw [List.length_append, List.length_singleton] at hle
    omega

theorem IsGap.of_applies {form : Layout} {lexeme gap rest : Bytes}
    (h : Applies (.layout form) lexeme (lexeme ++ (gap ++ rest))) (hgap : IsGap gap rest) :
    IsGap (lexeme ++ gap) rest := by
  cases form with
  | whitespace => exact .whitespace h.mem_language hgap
  | comment =>
    obtain ⟨line, rfl, hline, hend⟩ := h.comment_ends
    exact .comment hline hend hgap

namespace Cursor

/-! ## Moving on -/

@[simp] theorem rest_ofSource (source : Bytes) : (ofSource source).rest = source := rfl

@[simp] theorem advance_zero (c : Cursor) : c.advance 0 = c := by
  simp [advance]

@[simp] theorem advance_advance (c : Cursor) (m n : Nat) :
    (c.advance m).advance n = c.advance (m + n) := by
  simp [advance, Nat.add_assoc, List.take_add, Position.advance_append]

/-- The cursor at an offset of a source. -/
def place (source : Bytes) (offset : Nat) : Cursor := (ofSource source).advance offset

@[simp] theorem rest_place (source : Bytes) (offset : Nat) :
    (place source offset).rest = source.drop offset := rfl

@[simp] theorem offset_place (source : Bytes) (offset : Nat) :
    (place source offset).offset = offset := Nat.zero_add offset

@[simp] theorem advance_place (source : Bytes) (offset n : Nat) :
    (place source offset).advance n = place source (offset + n) := advance_advance _ _ _

theorem position_place (source : Bytes) (offset : Nat) :
    (place source offset).position = Position.after (source.take offset) :=
  Position.advance_start _

/-! ## What a scan does -/

/-- What a scan yields at the place where it stops, and the cursor that it leaves. -/
inductive Reads (c : Cursor) : Except Diagnostic Token × Cursor → Prop
  | atEnd (h : c.rest = []) : Reads c (.ok c.endToken, c)
  | unmatched (hne : c.rest ≠ []) (h : Unmatched c.rest) :
      Reads c (.error (c.report (.unmatched (Utf8.fragment c.rest))), c)
  | fixed {lexeme : Bytes} {kind : Kind} (h : Applies (.fixed lexeme kind) lexeme c.rest) :
      Reads c (.ok (c.token lexeme.length kind .none), c.advance lexeme.length)
  | literal {form : Literal} {lexeme : Bytes} {payload : Payload}
      (h : Applies (.literal form) lexeme c.rest) (hread : form.read lexeme = .ok payload) :
      Reads c (.ok (c.token lexeme.length form.kind payload), c.advance lexeme.length)
  | refused {form : Literal} {lexeme : Bytes} {refusal : Refusal}
      (h : Applies (.literal form) lexeme c.rest) (hread : form.read lexeme = .error refusal) :
      Reads c (.error ((c.advance (min refusal.index lexeme.length)).report refusal.fault),
        c.advance lexeme.length)

/-- What stands at a cursor where a rule other than layout applies is what the scan reads. -/
theorem reads_of_lexeme {c : Cursor} {m : Match} {outcome : Except Diagnostic Token}
    (h : longest? c.rest = some m) (hm : c.lexeme m = some outcome) :
    c.Reads (outcome, c.advance m.length) := by
  obtain ⟨rule, length⟩ := m
  obtain ⟨happlies, hlength⟩ := applies_of_longest? h
  cases rule with
  | layout form => simp [Cursor.lexeme] at hm
  | fixed t kind =>
    have ht : c.rest.take length = t := happlies.mem_language
    obtain rfl : Except.ok (c.token length kind .none) = outcome := by
      simpa [Cursor.lexeme] using hm
    simp only [ht] at happlies hlength
    simpa only [hlength] using Reads.fixed happlies
  | literal form =>
    obtain rfl : c.literal form length = outcome := by simpa [Cursor.lexeme] using hm
    unfold Cursor.literal
    split
    · simpa only [hlength] using Reads.literal happlies ‹_›
    · simpa only [hlength] using Reads.refused happlies ‹_›

/-- A scan passes a gap and reads what stands behind it. -/
theorem exists_gap_reads (c : Cursor) : ∃ gap rest,
    c.rest = gap ++ rest ∧ IsGap gap rest ∧ (c.advance gap.length).Reads c.scan := by
  fun_induction scan c with
  | case1 c h => exact ⟨[], c.rest, rfl, .nil _, by simpa using Reads.atEnd h⟩
  | case2 c hne h =>
    exact ⟨[], c.rest, rfl, .nil _, by simpa using Reads.unmatched hne (unmatched_of_longest? h)⟩
  | case3 c hne m h outcome hm =>
    exact ⟨[], c.rest, rfl, .nil _, by simpa using reads_of_lexeme h hm⟩
  | case4 c hne m h hm ih =>
    obtain ⟨gap, rest, hrest, hgap, hreads⟩ := ih
    obtain ⟨happlies, hlength⟩ := applies_of_longest? h
    have hsplit : c.rest.take m.length ++ (gap ++ rest) = c.rest := by
      rw [← hrest, rest_advance, List.take_append_drop]
    have hhead : Applies m.rule (c.rest.take m.length)
        (c.rest.take m.length ++ (gap ++ rest)) := by rwa [hsplit]
    obtain ⟨rule, length⟩ := m
    cases rule with
    | layout form =>
      refine ⟨c.rest.take length ++ gap, rest, ?_, hgap.of_applies hhead, ?_⟩
      · rw [List.append_assoc, hsplit]
      · simpa [hlength] using hreads
    | fixed t kind => simp [Cursor.lexeme] at hm
    | literal form => simp [Cursor.lexeme] at hm

/-- The token at the end is read at the end only. -/
theorem Reads.atEnd_of_eof {c c' : Cursor} {t : Token} (h : c.Reads (.ok t, c'))
    (ht : t.kind = .eof) : c.rest = [] ∧ t = c.endToken ∧ c' = c := by
  generalize houtcome : (Except.ok t, c') = outcome at h
  cases h with
  | unmatched | refused => cases houtcome
  | atEnd hend =>
    cases houtcome
    exact ⟨hend, rfl, rfl⟩
  | fixed happlies | literal happlies =>
    cases houtcome
    exact absurd (congrArg some ht) (kind?_ne_eof _ happlies.mem_rules)

section Applies

variable {c : Cursor} {lexeme : Bytes}

theorem rest_ne_nil_of_applies {rule : Rule} (h : Applies rule lexeme c.rest) : c.rest ≠ [] :=
  fun h0 => h.ne_nil (List.prefix_nil.1 (h0 ▸ h.head))

theorem take_of_applies {rule : Rule} (h : Applies rule lexeme c.rest) :
    c.rest.take lexeme.length = lexeme := (List.prefix_iff_eq_take.1 h.head).symm

theorem scan_of_unmatched_rest (hne : c.rest ≠ []) (h : Unmatched c.rest) :
    c.scan = (.error (c.report (.unmatched (Utf8.fragment c.rest))), c) :=
  scan_of_unmatched hne (longest?_eq_none_iff.2 h)

theorem scan_of_applies_layout {form : Layout} (h : Applies (.layout form) lexeme c.rest) :
    c.scan = (c.advance lexeme.length).scan :=
  scan_of_layout (rest_ne_nil_of_applies h) h.longest?_eq rfl

theorem scan_of_applies_fixed {text : Bytes} {kind : Kind}
    (h : Applies (.fixed text kind) lexeme c.rest) :
    c.scan = (.ok (c.token lexeme.length kind .none), c.advance lexeme.length) :=
  scan_of_lexeme (rest_ne_nil_of_applies h) h.longest?_eq rfl

theorem scan_of_applies_literal {form : Literal} (h : Applies (.literal form) lexeme c.rest) :
    c.scan = (c.literal form lexeme.length, c.advance lexeme.length) :=
  scan_of_lexeme (rest_ne_nil_of_applies h) h.longest?_eq rfl

theorem scan_of_read {form : Literal} {payload : Payload}
    (h : Applies (.literal form) lexeme c.rest) (hread : form.read lexeme = .ok payload) :
    c.scan = (.ok (c.token lexeme.length form.kind payload), c.advance lexeme.length) := by
  rw [scan_of_applies_literal h, Cursor.literal, take_of_applies h, hread]

theorem scan_of_refused {form : Literal} {refusal : Refusal}
    (h : Applies (.literal form) lexeme c.rest) (hread : form.read lexeme = .error refusal) :
    c.scan = (.error ((c.advance (min refusal.index lexeme.length)).report refusal.fault),
      c.advance lexeme.length) := by
  rw [scan_of_applies_literal h, Cursor.literal, take_of_applies h, hread]

end Applies

end Cursor
end Munch
