import Munch.Session
import Munch.Proofs.Tiling
import Munch.Proofs.WellFormed

/-!
# Positions are determined by offsets

Every position that a lexer reports, of a token or in a diagnostic, is the one that the bytes in
front of the reported offset determine. This holds of all lexers of a session, in whatever order
they are asked.

## Main definitions

* `IsLineStart`: the offset at which the line of another offset begins.
* `IsPosition`: the line and column of an offset.
* `Answer.Located`: all positions in an answer are those of their offsets.
* `Lexer.Located`: the invariant of the lexers of a session.
-/
namespace Munch

/-- The first offset behind the last line feed in front of an offset; the beginning of the source
if there is no line feed. -/
structure IsLineStart (source : Bytes) (offset first : Nat) : Prop where
  le : first ≤ offset
  start : first = 0 ∨ source[first - 1]? = some Byte.newline
  last : ∀ i, first ≤ i → i < offset → source[i]? ≠ some Byte.newline

/-- One line for every line feed in front of the offset, and one column for every byte of the line
in front of the offset that does not continue a UTF-8 sequence. -/
def IsPosition (source : Bytes) (offset : Nat) (p : Position) : Prop :=
  p.line = 1 + (source.take offset).count 0x0A ∧ ∃ first, IsLineStart source offset first ∧
    p.col = 1 + (source.slice first offset).countP fun b => ¬ (0x80 ≤ b ∧ b < 0xC0)

namespace Position

/-- The last line of a text stands behind its last line feed. -/
theorem eq_append_lastLine (s : Bytes) : ∃ front, s = front ++ lastLine s ∧
    Byte.newline ∉ lastLine s ∧ (front = [] ∨ ∃ lines, front = lines ++ [Byte.newline]) := by
  let inLine : Byte → Bool := fun b => b ≠ Byte.newline
  have hsplit : s.reverse.takeWhile inLine ++ s.reverse.dropWhile inLine = s.reverse :=
    List.takeWhile_append_dropWhile
  refine ⟨(s.reverse.dropWhile inLine).reverse, ?_, ?_, ?_⟩
  · rw [lastLine, ← List.reverse_append, hsplit, List.reverse_reverse]
  · intro hmem
    have hin := List.all_eq_true.1 List.all_takeWhile _ (List.mem_reverse.1 hmem)
    simp at hin
  · cases hrest : s.reverse.dropWhile inLine with
    | nil => exact Or.inl rfl
    | cons b rest =>
      have hb := List.head_dropWhile_not (p := inLine) (l := s.reverse) (by simp [hrest])
      simp only [hrest, List.head_cons, inLine, decide_eq_false_iff_not, not_not] at hb
      exact Or.inr ⟨rest.reverse, by rw [List.reverse_cons, hb]⟩

end Position

/-- The position at the end of a beginning of a source is the position of this offset. -/
theorem isPosition_after {source : Bytes} {offset : Nat} (h : offset ≤ source.length) :
    IsPosition source offset (Position.after (source.take offset)) := by
  obtain ⟨front, hfront, hline, hstart⟩ := Position.eq_append_lastLine (source.take offset)
  generalize hlast : Position.lastLine (source.take offset) = line at hfront hline
  have hoffset : offset = front.length + line.length := by
    simpa [List.length_take_of_le h] using congrArg List.length hfront
  have hsource : source = front ++ (line ++ source.drop offset) := by
    rw [← List.append_assoc, ← hfront, List.take_append_drop]
  refine ⟨rfl, front.length, ⟨by omega, ?_, ?_⟩, ?_⟩
  · rcases hstart with rfl | ⟨lines, rfl⟩
    · exact Or.inl rfl
    · right
      rw [hsource]
      simp
  · intro i hfirst hi hnew
    rw [hsource, List.getElem?_append_right hfirst, List.getElem?_append_left (by omega)] at hnew
    exact hline (List.mem_of_getElem? hnew)
  · have hslice : source.slice front.length offset = line := by
      rw [Bytes.slice, hsource, List.drop_left, hoffset, Nat.add_sub_cancel_left, List.take_left]
    have hcount : (fun b : Byte => !b.isContinuation) =
        fun b => decide ¬(0x80 ≤ b ∧ b < 0xC0) := by
      funext b
      simp only [← Byte.isContinuation_iff, decide_not, Bool.decide_eq_true]
    rw [hslice, Position.after, hlast, hcount]

/-! ## What is reported -/

/-- A token stands where it begins. -/
def Token.Located (source : Bytes) (t : Token) : Prop :=
  IsPosition source t.span.first t.position

def Diagnostic.Located (source : Bytes) (d : Diagnostic) : Prop :=
  IsPosition source d.offset d.position

/-- Every position in an answer is the one of its offset. -/
def Answer.Located (source : Bytes) : Answer → Prop
  | .token (.ok t) => t.Located source
  | .tokens (.ok ts) => ∀ t ∈ ts, t.Located source
  | .token (.error d) | .tokens (.error d) => d.Located source
  | .source _ => True

namespace Cursor

variable {source : Bytes} {offset : Nat}

theorem isPosition_place (h : offset ≤ source.length) :
    IsPosition source (place source offset).offset (place source offset).position := by
  rw [offset_place, position_place]
  exact isPosition_after h

/-- Reading at an offset reports the position there; a literal that is refused is reported at the
byte at which it is, and the scan stops behind it. -/
theorem Reads.located {outcome : Except Diagnostic Token} {c' : Cursor}
    (h : (place source offset).Reads (outcome, c')) (hoffset : offset ≤ source.length) :
    (Answer.token outcome).Located source ∧ ∃ stop ≤ source.length, c' = place source stop := by
  have hhere := isPosition_place hoffset
  cases h with
  | atEnd | unmatched => exact ⟨hhere, offset, hoffset, rfl⟩
  | fixed happlies | literal happlies =>
    exact ⟨hhere, _, (span_of_applies happlies).2, advance_place _ _ _⟩
  | @refused form lexeme refusal happlies =>
    have hspan := span_of_applies happlies
    refine ⟨?_, _, hspan.2, advance_place _ _ _⟩
    rw [advance_place]
    exact isPosition_place (by omega)

theorem scan_located (h : offset ≤ source.length) :
    (Answer.token (place source offset).scan.1).Located source ∧
      ∃ stop ≤ source.length, (place source offset).scan.2 = place source stop := by
  obtain ⟨stop, -, hstop, -, hreads⟩ := exists_slice_reads h
  exact hreads.located hstop

theorem Run.located {c' : Cursor} {ts : List Token} {last : Except Diagnostic Token}
    (h : (place source offset).Run ts last c') (hoffset : offset ≤ source.length) :
    (∀ t ∈ ts, t.Located source) ∧ (Answer.token last).Located source ∧
      ∃ stop ≤ source.length, c' = place source stop := by
  generalize hc : place source offset = c at h
  induction h generalizing offset with
  | stop hscan =>
    subst hc
    have hlocated := scan_located hoffset
    rw [hscan] at hlocated
    exact ⟨by simp, hlocated⟩
  | token hscan _ _ ih =>
    subst hc
    have hlocated := scan_located hoffset
    rw [hscan] at hlocated
    obtain ⟨ht, stop, hstop, rfl⟩ := hlocated
    obtain ⟨hts, hlast⟩ := ih hstop rfl
    exact ⟨List.forall_mem_cons.2 ⟨ht, hts⟩, hlast⟩

end Cursor

/-! ## Sessions -/

namespace Lexer

/-- The lexer stands at an offset of the source, and the diagnostic that ended it is located. -/
structure Located (source : Bytes) (l : Lexer) : Prop where
  cursor : ∃ offset ≤ source.length, l.cursor = .place source offset
  failure : ∀ d, l.failure = some d → d.Located source

theorem located_ofSource (source : Bytes) : (ofSource source).Located source where
  cursor := ⟨0, Nat.zero_le _, (Cursor.advance_zero _).symm⟩
  failure d hd := by cases hd

variable {source : Bytes} {l : Lexer}

theorem Located.next (h : l.Located source) :
    (Answer.token l.next.1).Located source ∧ l.next.2.Located source := by
  obtain ⟨offset, hoffset, hcursor⟩ := h.cursor
  cases hfailure : l.failure with
  | some d =>
    rw [next_of_failure hfailure]
    exact ⟨h.failure d hfailure, h⟩
  | none =>
    obtain ⟨hanswer, hstop⟩ := Cursor.scan_located hoffset
    rw [← hcursor] at hanswer hstop
    rcases hscan : l.cursor.scan with ⟨outcome, c'⟩
    rw [hscan] at hanswer hstop
    cases outcome with
    | ok t =>
      rw [next_of_scan_ok hfailure hscan]
      exact ⟨hanswer, hstop, h.failure⟩
    | error d =>
      rw [next_of_scan_error hfailure hscan]
      refine ⟨hanswer, hstop, fun d' hd' => ?_⟩
      cases hd'
      exact hanswer

theorem Located.drain (h : l.Located source) :
    (Answer.tokens l.drain.1).Located source ∧ l.drain.2.Located source := by
  obtain ⟨offset, hoffset, hcursor⟩ := h.cursor
  cases hfailure : l.failure with
  | some d =>
    rw [drain_of_failure hfailure]
    exact ⟨h.failure d hfailure, h⟩
  | none =>
    obtain ⟨ts, last, c', hrun⟩ := l.cursor.exists_run
    have hdrain := hrun.drain_eq hfailure
    rw [hcursor] at hrun
    obtain ⟨hts, hanswer, hstop⟩ := hrun.located hoffset
    rw [hdrain]
    cases last with
    | ok t =>
      refine ⟨fun u hu => ?_, hstop, h.failure⟩
      rcases List.mem_append.1 hu with hu | hu
      · exact hts u hu
      · exact List.mem_singleton.1 hu ▸ hanswer
    | error d =>
      refine ⟨hanswer, hstop, fun d' hd' => ?_⟩
      cases hd'
      exact hanswer

theorem Located.answer (h : l.Located source) (query : Query) :
    (l.answer query).1.Located source ∧ (l.answer query).2.Located source := by
  cases query with
  | next => exact h.next
  | drain => exact h.drain
  | source => exact ⟨trivial, h⟩

end Lexer

namespace Session

/-- A step answers with positions of offsets only and keeps the lexers of the session located. -/
theorem step_located {source : Bytes} {session : Session}
    (h : ∀ l ∈ session.lexers, l.Located source) (query : Query) (index : Nat) :
    (∀ answer, (session.step query index).1 = some answer → answer.Located source) ∧
      ∀ l ∈ (session.step query index).2.lexers, l.Located source := by
  unfold step
  cases hlexer : session.lexers[index]? with
  | none => exact ⟨by simp, h⟩
  | some lexer =>
    obtain ⟨hanswer, hafter⟩ := (h lexer (List.mem_of_getElem? hlexer)).answer query
    refine ⟨fun answer heq => Option.some.inj heq ▸ hanswer, fun l hl => ?_⟩
    rcases List.mem_or_eq_of_mem_set hl with hl | rfl
    · exact h l hl
    · exact hafter

theorem run_located_of_lexers {source : Bytes} (steps : List (Query × Nat)) {session : Session}
    (h : ∀ l ∈ session.lexers, l.Located source) :
    ∀ answer, some answer ∈ session.run steps → answer.Located source := by
  induction steps generalizing session with
  | nil => simp [run]
  | cons step steps ih =>
    obtain ⟨query, index⟩ := step
    obtain ⟨hanswer, hafter⟩ := step_located h query index
    intro answer hmem
    rcases List.mem_cons.1 hmem with heq | hmem
    · exact hanswer answer heq.symm
    · exact ih hafter answer hmem

/-- Positions are determined by offsets: whatever the lexers of a source are asked and in whatever
order, the position of every token and every diagnostic is the one of its offset. -/
theorem run_located (source : Bytes) (count : Nat) (steps : List (Query × Nat)) :
    ∀ answer, some answer ∈ (start source count).run steps → answer.Located source := by
  refine run_located_of_lexers steps fun l hl => ?_
  rw [List.eq_of_mem_replicate hl]
  exact Lexer.located_ofSource source

/-- An unknown escape in the second line of its literal. -/
theorem run_located_escape :
    let source := Bytes.ascii "\"\n \\q\""
    let d : Diagnostic := ⟨.invalidEscape, (Fault.unknownEscape 0x71).message, 3, ⟨2, 2⟩, [0x5C]⟩
    some (.token (.error d)) ∈ (start source 1).run [(.next, 0)] ∧ d.Located source := by
  intro source d
  have hlongest : longest? source = some ⟨.literal .text, 6⟩ := by decide +kernel
  have hread : Literal.read .text (source.take 6) = .error ⟨.unknownEscape 0x71, 3⟩ := by
    have hfault : Utf8.firstFault? (source.take 6) = none := Utf8.firstFault?_of_ascii (by decide)
    rw [Literal.read, Literal.Text.unquote, hfault]
    rfl
  have happlies : Applies (.literal .text) (source.take 6) source := (applies_of_longest? hlongest).1
  have hscan := Cursor.scan_of_refused (c := .ofSource source) happlies hread
  have hnext := Lexer.next_of_scan_error (l := .ofSource source) rfl hscan
  have hmem : some (.token (.error d)) ∈ (start source 1).run [(.next, 0)] :=
    List.mem_singleton.2 (congrArg (some ∘ Answer.token ∘ Prod.fst) hnext).symm
  exact ⟨hmem, run_located source 1 [(.next, 0)] _ hmem⟩

end Session
end Munch
