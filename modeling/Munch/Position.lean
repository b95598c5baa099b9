import Munch.Bytes

/-!
# Lines and columns

A position counts lines from the line feeds passed and columns from the bytes passed that
do not continue a UTF-8 sequence, both starting at one. `Position.after` gives the position
at the end of a text in closed form; `Position.advance_start` says that moving over the
text byte by byte arrives there.
-/
namespace Munch

structure Position where
  line : Nat
  col : Nat
deriving DecidableEq, Repr

namespace Position

def start : Position := ⟨1, 1⟩

/-- A line feed opens a new line; every other byte that is no continuation is a column. -/
def step (p : Position) (b : Byte) : Position :=
  if b = Byte.newline then ⟨p.line + 1, 1⟩
  else if b.isContinuation then p
  else ⟨p.line, p.col + 1⟩

def advance (p : Position) (s : Bytes) : Position := s.foldl step p

/-- What stands after the last line feed of a text. -/
def lastLine (s : Bytes) : Bytes := (s.reverse.takeWhile (· ≠ Byte.newline)).reverse

/-- The position at the end of a text that begins at the start. -/
def after (s : Bytes) : Position :=
  ⟨1 + s.count Byte.newline, 1 + (lastLine s).countP fun b => !b.isContinuation⟩

@[simp] theorem advance_nil (p : Position) : p.advance [] = p := rfl

theorem advance_append (p : Position) (s t : Bytes) :
    p.advance (s ++ t) = (p.advance s).advance t := List.foldl_append

theorem after_append_singleton (s : Bytes) (b : Byte) :
    after (s ++ [b]) = (after s).step b := by
  by_cases hb : b = Byte.newline
  · subst hb
    simp [after, step, lastLine, Nat.add_assoc]
  · by_cases hc : b.isContinuation <;>
      simp [after, step, lastLine, hb, hc, Nat.add_assoc]

/-- Moving over a text from the start arrives at the position its bytes determine. -/
theorem advance_start (s : Bytes) : start.advance s = after s := by
  suffices ∀ t : Bytes, start.advance t.reverse = after t.reverse by
    simpa using this s.reverse
  intro t
  induction t with
  | nil => rfl
  | cons b t ih =>
    rw [List.reverse_cons, advance_append, ih, after_append_singleton]
    rfl

end Position
end Munch
