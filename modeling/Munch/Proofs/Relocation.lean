import Munch.Proofs.Gap
import Munch.Proofs.Run

/-!
# What a scan finds does not depend on where it is

A scan reads the rest of the source only. The offset and the position of the cursor are carried
along and come up again in what is reported, so lexers with the same rest in front of them answer
alike: if one stands some bytes and lines behind the other the answers are shifted, and in any case
the answers say the same.

## Main definitions

* `Finding`, `Cursor.outcome`: what a scan finds, and how it is reported at a cursor.
* `Token.shift`, `Diagnostic.shift`, `Outcome.shift`: the same report some bytes and lines later.
* `Outcome.content`: a report without its place in the source.
-/
namespace Munch

/-! ## Findings -/

/-- What a scan finds at the place where it stops. -/
inductive Finding
  | atEnd
  | token (length : Nat) (kind : Kind) (payload : Payload)
  | fault (index : Nat) (fault : Fault)

namespace Cursor

/-- How a cursor reports what is found at it. -/
def outcome (c : Cursor) : Finding → Except Diagnostic Token
  | .atEnd => .ok c.endToken
  | .token length kind payload => .ok (c.token length kind payload)
  | .fault index fault => .error ((c.advance index).report fault)

/-- What a scan reads on the spot is found at every cursor with the same rest. -/
theorem Reads.exists_finding {c : Cursor} {outcome : Except Diagnostic Token × Cursor}
    (h : c.Reads outcome) : ∃ finding length, ∀ d : Cursor, d.rest = c.rest →
      d.scan = (d.outcome finding, d.advance length) := by
  cases h with
  | atEnd h =>
    refine ⟨.atEnd, 0, fun d hd => ?_⟩
    rw [scan_of_rest_nil (hd.trans h), advance_zero, Cursor.outcome]
  | unmatched hne h =>
    refine ⟨.fault 0 (.unmatched (Utf8.fragment c.rest)), 0, fun d hd => ?_⟩
    rw [← hd] at hne h ⊢
    rw [scan_of_unmatched_rest hne h, advance_zero, Cursor.outcome, advance_zero]
  | @fixed lexeme kind h =>
    refine ⟨.token lexeme.length kind .none, lexeme.length, fun d hd => ?_⟩
    rw [scan_of_applies_fixed (hd ▸ h), Cursor.outcome]
  | @literal form lexeme payload h hread =>
    refine ⟨.token lexeme.length form.kind payload, lexeme.length, fun d hd => ?_⟩
    rw [scan_of_read (hd ▸ h) hread, Cursor.outcome]
  | @refused form lexeme refusal h hread =>
    refine ⟨.fault (min refusal.index lexeme.length) refusal.fault, lexeme.length, fun d hd => ?_⟩
    rw [scan_of_refused (hd ▸ h) hread, Cursor.outcome]

/-- The rest of the source decides how many bytes a scan passes over, what it finds behind them and
how many bytes that takes. -/
theorem exists_finding (s : Bytes) : ∃ gap length finding, ∀ c : Cursor, c.rest = s →
    c.scan = ((c.advance gap).outcome finding, c.advance (gap + length)) := by
  obtain ⟨gap, rest, hs, hgap, hreads⟩ := (ofSource s).exists_gap_reads
  obtain ⟨finding, length, hfinding⟩ := hreads.exists_finding
  refine ⟨gap.length, length, finding, fun c hc => ?_⟩
  rw [rest_ofSource] at hs
  have hbehind : (c.advance gap.length).rest = ((ofSource s).advance gap.length).rest := by
    rw [rest_advance, rest_advance, hc, rest_ofSource]
  rw [scan_of_gap hgap (hc.trans hs), hfinding _ hbehind, advance_advance]

end Cursor

/-! ## Shifted reports -/

/-- The same column some lines later. -/
def Position.shift (lines : Nat) (p : Position) : Position := ⟨p.line + lines, p.col⟩

def Token.shift (bytes lines : Nat) (t : Token) : Token :=
  { t with
    span := ⟨t.span.first + bytes, t.span.last + bytes⟩
    position := t.position.shift lines }

def Diagnostic.shift (bytes lines : Nat) (d : Diagnostic) : Diagnostic :=
  { d with offset := d.offset + bytes, position := d.position.shift lines }

/-- The same answer from a lexer that stands some bytes and lines later. -/
def Outcome.shift (bytes lines : Nat) : Except Diagnostic Token → Except Diagnostic Token
  | .ok t => .ok (t.shift bytes lines)
  | .error d => .error (d.shift bytes lines)

theorem Position.advance_shift (p : Position) (lines : Nat) (s : Bytes) :
    (p.shift lines).advance s = (p.advance s).shift lines := by
  induction s generalizing p with
  | nil => rfl
  | cons b s ih =>
    have hstep : (p.shift lines).step b = (p.step b).shift lines := by
      unfold step shift
      split_ifs <;> simp [Nat.add_right_comm]
    simp only [advance, List.foldl_cons] at ih ⊢
    rw [hstep, ih]

namespace Cursor

/-- The same rest of a source some bytes and lines later. -/
def shift (bytes lines : Nat) (c : Cursor) : Cursor :=
  ⟨c.rest, c.offset + bytes, c.position.shift lines⟩

variable {bytes lines : Nat}

theorem advance_shift (c : Cursor) (n : Nat) :
    (c.shift bytes lines).advance n = (c.advance n).shift bytes lines := by
  simp [advance, shift, Position.advance_shift, Nat.add_right_comm]

theorem outcome_shift (c : Cursor) (finding : Finding) :
    (c.shift bytes lines).outcome finding = Outcome.shift bytes lines (c.outcome finding) := by
  cases finding with
  | atEnd => rfl
  | token length kind payload =>
    simp [outcome, token, shift, Outcome.shift, Token.shift, Nat.add_right_comm]
  | fault index fault =>
    rw [outcome, advance_shift]
    rfl

theorem scan_shift (c : Cursor) : (c.shift bytes lines).scan =
    (Outcome.shift bytes lines c.scan.1, c.scan.2.shift bytes lines) := by
  obtain ⟨gap, length, finding, hscan⟩ := exists_finding c.rest
  rw [hscan c rfl, hscan (c.shift bytes lines) rfl, advance_shift, advance_shift, outcome_shift]

end Cursor

/-! ## Reports without their places -/

/-- What a diagnostic says: its kind, its message and its fragment. -/
def Diagnostic.content (d : Diagnostic) : FaultKind × Bytes × Bytes :=
  (d.kind, d.message, d.fragment)

/-- An answer without its place in the source. -/
def Outcome.content : Except Diagnostic Token → Except (FaultKind × Bytes × Bytes) (Kind × Payload)
  | .ok t => .ok (t.kind, t.payload)
  | .error d => .error d.content

namespace Cursor

variable {c d : Cursor}

theorem rest_advance_congr (h : c.rest = d.rest) (n : Nat) :
    (c.advance n).rest = (d.advance n).rest := by
  rw [rest_advance, rest_advance, h]

theorem content_outcome (h : c.rest = d.rest) (finding : Finding) :
    Outcome.content (c.outcome finding) = Outcome.content (d.outcome finding) := by
  cases finding with
  | atEnd | token => rfl
  | fault index fault =>
    have hrest := rest_advance_congr h index
    simp only [outcome, report, Diagnostic.ofFault, Outcome.content, Diagnostic.content, hrest]

theorem content_scan (h : c.rest = d.rest) :
    Outcome.content c.scan.1 = Outcome.content d.scan.1 ∧ c.scan.2.rest = d.scan.2.rest := by
  obtain ⟨gap, length, finding, hscan⟩ := exists_finding d.rest
  rw [hscan c h, hscan d rfl]
  exact ⟨content_outcome (rest_advance_congr h gap) finding, rest_advance_congr h _⟩

end Cursor

/-! ## Lexers that answer alike -/

namespace Lexer

/-- If the answers at related cursors correspond and the cursors behind them are related again, then
all answers of lexers at related cursors correspond. -/
theorem pull_congr {α : Type} {R : Cursor → Cursor → Prop} {f g : Except Diagnostic Token → α}
    (hok : ∀ x y, f x = g y → x.isOk = y.isOk)
    (hscan : ∀ c d, R c d → f c.scan.1 = g d.scan.1 ∧ R c.scan.2 d.scan.2) {l l' : Lexer}
    (hl : l.failure = none) (hl' : l'.failure = none) (h : R l.cursor l'.cursor) (n : Nat) :
    (l.pull n).map f = (l'.pull n).map g := by
  induction n generalizing l l' with
  | zero => rfl
  | succ n ih =>
    obtain ⟨hanswer, hbehind⟩ := hscan _ _ h
    have hsame := hok _ _ hanswer
    rcases hc : l.cursor.scan with ⟨d | t, c⟩ <;> rcases hc' : l'.cursor.scan with ⟨d' | t', c'⟩ <;>
      rw [hc, hc'] at hanswer hbehind hsame
    · -- Both lexers give their diagnostics from now on.
      have herror : f (.error d) = g (.error d') := hanswer
      rw [pull, pull, next_of_scan_error hl hc, next_of_scan_error hl' hc', pull_of_failure rfl,
        pull_of_failure rfl]
      simp [herror]
    · cases hsame
    · cases hsame
    · rw [pull, pull, next_of_scan_ok hl hc, next_of_scan_ok hl' hc']
      exact congrArg₂ List.cons hanswer (ih hl hl' hbehind)

/-- A lexer that stands some bytes and lines behind another one gives the same answers there. -/
theorem pull_shift {l l' : Lexer} {bytes lines : Nat} (hl : l.failure = none)
    (hl' : l'.failure = none) (h : l'.cursor = l.cursor.shift bytes lines) (n : Nat) :
    l'.pull n = (l.pull n).map (Outcome.shift bytes lines) := by
  have hok : ∀ x y, id x = Outcome.shift bytes lines y → x.isOk = y.isOk := by
    rintro _ (d | t) rfl <;> rfl
  rw [← pull_congr (R := fun c d => c = d.shift bytes lines) hok ?_ hl' hl h n, List.map_id]
  rintro _ d rfl
  rw [Cursor.scan_shift]
  exact ⟨rfl, rfl⟩

/-- Lexers with the same rest of a source in front of them say the same. -/
theorem content_pull {l l' : Lexer} (hl : l.failure = none) (hl' : l'.failure = none)
    (h : l.cursor.rest = l'.cursor.rest) (n : Nat) :
    (l.pull n).map Outcome.content = (l'.pull n).map Outcome.content := by
  refine pull_congr ?_ (fun c d hrest => Cursor.content_scan hrest) hl hl' h n
  rintro (d | t) (d' | t') heq
  · rfl
  · cases heq
  · cases heq
  · rfl

/-- Lexers whose cursors scan alike answer alike. -/
theorem pull_of_scan_eq {l l' : Lexer} (hl : l.failure = none) (hl' : l'.failure = none)
    (h : l.cursor.scan = l'.cursor.scan) (n : Nat) : l.pull n = l'.pull n := by
  have hpull := pull_congr (R := fun c d => c.scan = d.scan) (f := id) (g := id) ?_ ?_ hl hl' h n
  · simpa using hpull
  · rintro x _ rfl
    rfl
  · intro c d hscan
    rw [hscan]
    exact ⟨rfl, rfl⟩

end Lexer
end Munch
