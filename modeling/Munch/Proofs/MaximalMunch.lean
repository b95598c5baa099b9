import Munch.Lexer
import Munch.Proofs.Refusal
import Munch.Proofs.Scan

/-!
# Maximal munch

At every offset of a source a lexer takes the longest lexeme that the grammar allows there and
acts by the earliest rule that has it, and it reports an unmatched character at this offset
exactly if the grammar allows none.
-/
namespace Munch

namespace Lexer

/-- What a lexer does with a lexeme that a rule takes: layout is passed over, a fixed lexeme
becomes a token, and a literal becomes a token or ends the lexer. -/
def act (l : Lexer) (rule : Rule) (lexeme : Bytes) : Except Diagnostic Token × Lexer :=
  let passed := { l with cursor := l.cursor.advance lexeme.length }
  match rule with
  | .layout _ => passed.next
  | .fixed _ kind => (.ok (l.cursor.token lexeme.length kind .none), passed)
  | .literal form =>
    match form.read lexeme with
    | .ok payload => (.ok (l.cursor.token lexeme.length form.kind payload), passed)
    | .error refusal =>
      let d := (l.cursor.advance (min refusal.index lexeme.length)).report refusal.fault
      (.error d, { passed with failure := some d })

theorem next_of_failure_none {l : Lexer} (hl : l.failure = none) :
    l.next = l.after l.cursor.scan := by
  simp [next, hl]

theorem fst_after {α : Type} (l : Lexer) (outcome : Except Diagnostic α × Cursor) :
    (l.after outcome).1 = outcome.1 := by
  obtain ⟨x, c⟩ := outcome
  cases x <;> rfl

theorem next_eq_act {l : Lexer} {rule : Rule} {lexeme : Bytes} (hl : l.failure = none)
    (h : Applies rule lexeme l.cursor.rest) : l.next = l.act rule lexeme := by
  rw [next_of_failure_none hl]
  cases rule with
  | layout form =>
    rw [Cursor.scan_of_applies_layout h]
    exact (next_of_failure_none (l := { l with cursor := l.cursor.advance lexeme.length }) hl).symm
  | fixed text kind => rw [Cursor.scan_of_applies_fixed h]; rfl
  | literal form =>
    rw [act]
    cases hread : form.read lexeme with
    | ok payload => rw [Cursor.scan_of_read h hread]; rfl
    | error refusal => rw [Cursor.scan_of_refused h hread]; rfl

end Lexer

theorem Cursor.report_offset (c : Cursor) (fault : Fault) : (c.report fault).offset = c.offset :=
  rfl

/-- A scan reports an unmatched character at the cursor itself exactly if no rule has a lexeme
there. -/
theorem Cursor.scan_reports_unmatched_iff {c : Cursor} (hc : c.rest ≠ []) :
    (∃ d, c.scan.1 = .error d ∧ d.kind = .unmatchedCharacter ∧ d.offset = c.offset) ↔
      Unmatched c.rest := by
  constructor
  · rintro ⟨d, hd, hkind, hoffset⟩
    obtain ⟨gap, rest, hrest, -, hreads⟩ := c.exists_gap_reads
    generalize c.scan = outcome at hd hreads
    cases hreads with
    | atEnd | fixed | literal => cases hd
    | unmatched hne h =>
      cases hd
      have hgap : gap.length = 0 := by simpa [report_offset, advance] using hoffset
      simpa [hgap] using h
    | refused h hread =>
      cases hd
      exact absurd hkind (Literal.kind_ne_unmatched_of_read_error hread)
  · intro h
    rw [scan_of_unmatched_rest hc h]
    exact ⟨_, rfl, rfl, rfl⟩

/-- Maximal munch. Every rule finds its longest match; a lexer takes the longest lexeme of any
rule by the earliest rule that has it; and it reports an unmatched character on the spot
exactly if no rule has a lexeme. -/
theorem Lexer.next_maximal_munch (source : Bytes) (offset : Nat) (h : offset < source.length)
    (position : Position) :
    let rest := source.drop offset
    let l : Lexer := ⟨source, ⟨rest, offset, position⟩, none⟩
    (∀ rule ∈ rules, Grammar.IsLongest rule.language rest (rule.extent rest)) ∧
      ((∃ rule lexeme, Applies rule lexeme rest) ∨ Unmatched rest) ∧
      (∀ rule lexeme, Applies rule lexeme rest → l.next = l.act rule lexeme) ∧
      ((∃ d, l.next.1 = .error d ∧ d.kind = .unmatchedCharacter ∧ d.offset = offset) ↔
        Unmatched rest) := by
  intro rest l
  have hrest : rest ≠ [] := List.length_pos_iff.1 (by simp only [rest, List.length_drop]; omega)
  refine ⟨fun rule _ => rule.isLongest_extent rest, applies_or_unmatched rest,
    fun rule lexeme happlies => next_eq_act rfl happlies, ?_⟩
  rw [next_of_failure_none rfl, fst_after]
  exact Cursor.scan_reports_unmatched_iff hrest

/-- At `1.e` the double backs off to the digit, which is a number then. -/
theorem Lexer.next_maximal_munch_number :
    let source := Bytes.ascii "a 1.e"
    let l : Lexer := ⟨source, ⟨source.drop 2, 2, ⟨1, 3⟩⟩, none⟩
    2 < source.length ∧ l.next = l.act (.literal .number) (Bytes.ascii "1") := by
  have hlongest : longest? (Bytes.ascii "1.e") = some ⟨.literal .number, 1⟩ := by decide +kernel
  exact ⟨by decide, (next_maximal_munch (Bytes.ascii "a 1.e") 2 (by decide) ⟨1, 3⟩).2.2.1 _ _
    (applies_of_longest? hlongest).1⟩

end Munch
