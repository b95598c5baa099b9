import Munch.Rule
import Munch.Diagnostic

/-!
# Cursors

A cursor stands at an offset of a source and holds what is left of it. Scanning from a
cursor passes over layout and then finds the end of the source, a place where no rule
matches, or a lexeme, which yields a token unless its literal is refused.

## Main definitions

* `Cursor`, `Cursor.ofSource`, `Cursor.advance`: a place in a source and moving on from it.
* `Cursor.lexeme`: what a match at a cursor yields.
* `Cursor.scan`: the next token or diagnostic, and the cursor behind it.
-/
namespace Munch

structure Cursor where
  rest : Bytes
  offset : Nat
  position : Position
deriving DecidableEq, Repr

namespace Cursor

def ofSource (source : Bytes) : Cursor := ⟨source, 0, .start⟩

/-- Moves over `n` bytes. -/
def advance (c : Cursor) (n : Nat) : Cursor :=
  ⟨c.rest.drop n, c.offset + n, c.position.advance (c.rest.take n)⟩

def report (c : Cursor) (fault : Fault) : Diagnostic :=
  .ofFault fault c.offset c.position c.rest

/-- The token at the end of the source. -/
def endToken (c : Cursor) : Token := ⟨.eof, .none, ⟨c.offset, c.offset⟩, c.position⟩

def token (c : Cursor) (length : Nat) (kind : Kind) (payload : Payload) : Token :=
  ⟨kind, payload, ⟨c.offset, c.offset + length⟩, c.position⟩

/-- The token of a literal of the given length, or the diagnostic at the byte of the literal
at which it is refused. -/
def literal (c : Cursor) (form : Literal) (length : Nat) : Except Diagnostic Token :=
  match form.read (c.rest.take length) with
  | .ok payload => .ok (c.token length form.kind payload)
  | .error refusal => .error ((c.advance (min refusal.index length)).report refusal.fault)

/-- What a match at the cursor yields: nothing for layout. -/
def lexeme (c : Cursor) (m : Match) : Option (Except Diagnostic Token) :=
  match m.rule with
  | .layout _ => none
  | .fixed _ kind => some (.ok (c.token m.length kind .none))
  | .literal form => some (c.literal form m.length)

/-- The next token or diagnostic from a cursor, and the cursor from which the scan goes on:
behind the lexeme also if its literal is refused, and at the place itself if no rule
matches. -/
def scan (c : Cursor) : Except Diagnostic Token × Cursor :=
  if c.rest = [] then (.ok c.endToken, c)
  else
    match _h : longest? c.rest with
    | none => (.error (c.report (.unmatched (Utf8.fragment c.rest))), c)
    | some m =>
      match c.lexeme m with
      | some outcome => (outcome, c.advance m.length)
      | none => (c.advance m.length).scan
termination_by c.rest.length
decreasing_by
  have := longest?_length_pos ‹longest? c.rest = some m›
  have := List.length_pos_iff.2 ‹c.rest ≠ []›
  simp only [advance, List.length_drop]
  omega

theorem scan_of_rest_nil {c : Cursor} (h : c.rest = []) : c.scan = (.ok c.endToken, c) := by
  rw [scan, if_pos h]

theorem scan_of_unmatched {c : Cursor} (hc : c.rest ≠ []) (h : longest? c.rest = none) :
    c.scan = (.error (c.report (.unmatched (Utf8.fragment c.rest))), c) := by
  rw [scan, if_neg hc]; split <;> simp_all

theorem scan_of_lexeme {c : Cursor} {m : Match} {outcome : Except Diagnostic Token}
    (hc : c.rest ≠ []) (h : longest? c.rest = some m) (hm : c.lexeme m = some outcome) :
    c.scan = (outcome, c.advance m.length) := by
  rw [scan, if_neg hc]; split <;> simp_all

theorem scan_of_layout {c : Cursor} {m : Match} (hc : c.rest ≠ [])
    (h : longest? c.rest = some m) (hm : c.lexeme m = none) :
    c.scan = (c.advance m.length).scan := by
  rw [scan, if_neg hc]; split <;> simp_all

theorem rest_advance (c : Cursor) (n : Nat) : (c.advance n).rest = c.rest.drop n := rfl

/-- A scan that yields a token before the end of the source leaves less of it. -/
theorem length_rest_scan_lt {c : Cursor} {t : Token} (h : c.scan.1 = .ok t)
    (ht : t.kind ≠ .eof) : c.scan.2.rest.length < c.rest.length := by
  fun_induction scan c with
  | case1 => simp at h; subst h; simp [endToken] at ht
  | case2 => simp at h
  | case3 c hc m hm _ _ =>
    have := longest?_length_pos hm
    have := List.length_pos_iff.2 hc
    simp only [advance, List.length_drop]
    omega
  | case4 c _ m _ _ ih =>
    have := ih h
    rw [rest_advance, List.length_drop] at this
    omega

end Cursor
end Munch
