import Munch.Cursor

/-!
# Readings

A reading is a source read to its end or to its first diagnostic: the tokens found on the
way, the diagnostic if there is one, and the cursor at which it stopped.

## Main definitions

* `Reading`, `Reading.outcome`: a reading, and its tokens or its diagnostic.
* `Cursor.read`: the reading from a cursor on.
* `Reading.ofSource`, `tokenize`: the reading of a whole source and its outcome.
-/
namespace Munch

structure Reading where
  /-- The tokens in order; the last is the end of the source unless there is a failure. -/
  tokens : List Token
  failure : Option Diagnostic
  cursor : Cursor
deriving DecidableEq, Repr

/-- All tokens, or the diagnostic alone. -/
def Reading.outcome (r : Reading) : Except Diagnostic (List Token) :=
  match r.failure with
  | none => .ok r.tokens
  | some d => .error d

namespace Cursor

/-- Reads from a cursor on. The tokens seen earlier, the latest first, stand in front. -/
def read (c : Cursor) (seen : List Token) : Reading :=
  match _h : c.scan with
  | (.error d, c') => ⟨seen.reverse, some d, c'⟩
  | (.ok t, c') => if t.kind = .eof then ⟨(t :: seen).reverse, none, c'⟩ else c'.read (t :: seen)
termination_by c.rest.length
decreasing_by
  have h := ‹c.scan = (.ok t, c')›
  have := length_rest_scan_lt (c := c) (t := t) (by rw [h]) ‹_›
  rwa [h] at this

theorem read_of_scan_error {c c' : Cursor} {d : Diagnostic} (h : c.scan = (.error d, c'))
    (seen : List Token) : c.read seen = ⟨seen.reverse, some d, c'⟩ := by
  rw [read]; split <;> simp_all

theorem read_of_scan_eof {c c' : Cursor} {t : Token} (h : c.scan = (.ok t, c'))
    (ht : t.kind = .eof) (seen : List Token) :
    c.read seen = ⟨(t :: seen).reverse, none, c'⟩ := by
  rw [read]; split <;> simp_all

theorem read_of_scan_token {c c' : Cursor} {t : Token} (h : c.scan = (.ok t, c'))
    (ht : t.kind ≠ .eof) (seen : List Token) : c.read seen = c'.read (t :: seen) := by
  rw [read]; split <;> simp_all

/-- What was seen earlier stands in front of what is read. -/
theorem read_append (c : Cursor) (seen earlier : List Token) :
    c.read (seen ++ earlier) =
      { c.read seen with tokens := earlier.reverse ++ (c.read seen).tokens } := by
  fun_induction read c seen with
  | case1 c seen d c' h => rw [read_of_scan_error h]; simp
  | case2 c seen t c' h ht => rw [read_of_scan_eof h ht]; simp
  | case3 c seen t c' h ht ih => rw [read_of_scan_token h ht, ← List.cons_append, ih]

end Cursor

def Reading.ofSource (source : Bytes) : Reading := (Cursor.ofSource source).read []

/-- All tokens of a source, the end included, or the first diagnostic. -/
def tokenize (source : Bytes) : Except Diagnostic (List Token) :=
  (Reading.ofSource source).outcome

end Munch
