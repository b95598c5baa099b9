import Munch.Bytes

/-!
# Lines of a text

A line goes up to the next line feed, and the last one up to the end of the text. If the lines of a
text are all ended by line feeds, then they stay the same whatever follows, so that a text printed
piece by piece has the lines of its pieces.

## Main definitions

* `Bytes.lines`: the lines of a text in order.
-/
namespace Munch.Bytes

/-- The lines of a text, without the line feeds that end them. -/
def lines : Bytes → List Bytes
  | [] => []
  | b :: s =>
    if b = Byte.newline then [] :: lines s
    else
      match lines s with
      | [] => [[b]]
      | line :: rest => (b :: line) :: rest

variable {b : Byte} {s line : Bytes} {rest : List Bytes}

theorem lines_cons_newline (s : Bytes) : lines (Byte.newline :: s) = [] :: lines s := by
  simp [lines]

/-- A byte that ends no line belongs to the line of the byte behind it. -/
theorem lines_cons_of_ne (hb : b ≠ Byte.newline) (h : lines s = line :: rest) :
    lines (b :: s) = (b :: line) :: rest := by
  simp [lines, hb, h]

theorem exists_lines_cons (h : s ≠ []) : ∃ line rest, lines s = line :: rest := by
  obtain ⟨b, s, rfl⟩ := List.exists_cons_of_ne_nil h
  rw [lines]
  split
  · exact ⟨[], _, rfl⟩
  · split <;> exact ⟨_, _, rfl⟩

/-- Bytes that end no line belong to the first line of what follows. -/
theorem lines_append_of_notMem {front : Bytes} (hfront : Byte.newline ∉ front)
    (h : lines s = line :: rest) : lines (front ++ s) = (front ++ line) :: rest := by
  induction front with
  | nil => exact h
  | cons b front ih =>
    obtain ⟨hb, hfront⟩ := List.ne_and_not_mem_of_not_mem_cons hfront
    exact lines_cons_of_ne hb.symm (ih hfront)

theorem lines_append_newline (h : Byte.newline ∉ line) (s : Bytes) :
    lines (line ++ Byte.newline :: s) = line :: lines s := by
  have hlines := lines_append_of_notMem h (lines_cons_newline s)
  rwa [List.append_nil] at hlines

/-- The lines of a text that is ended, and then those of what follows. -/
theorem lines_append (s t : Bytes) :
    lines (s ++ Byte.newline :: t) = lines (s ++ [Byte.newline]) ++ lines t := by
  induction s with
  | nil => simp [lines]
  | cons b s ih =>
    rw [List.cons_append, List.cons_append]
    by_cases hb : b = Byte.newline
    · rw [hb, lines_cons_newline, lines_cons_newline, ih, List.cons_append]
    · obtain ⟨line, rest, hlines⟩ := exists_lines_cons (s := s ++ [Byte.newline]) (by simp)
      rw [hlines, List.cons_append] at ih
      rw [lines_cons_of_ne hb hlines, lines_cons_of_ne hb ih, List.cons_append]

/-- Pieces that are empty or ended have the lines of each, and then come those of what follows. -/
theorem lines_flatMap_append {α : Type} {piece : α → Bytes}
    (h : ∀ a, piece a = [] ∨ ∃ s, piece a = s ++ [Byte.newline]) (as : List α) (t : Bytes) :
    lines (as.flatMap piece ++ t) = (as.flatMap fun a => lines (piece a)) ++ lines t := by
  induction as with
  | nil => rfl
  | cons a as ih =>
    rw [List.flatMap_cons, List.flatMap_cons, List.append_assoc, List.append_assoc, ← ih]
    rcases h a with hnil | ⟨s, hs⟩
    · rw [hnil]
      rfl
    · rw [hs, List.append_assoc, List.singleton_append, lines_append]

/-- A text that is ended has as many lines as line feeds. -/
theorem length_lines (s : Bytes) :
    (lines (s ++ [Byte.newline])).length = (s ++ [Byte.newline]).count Byte.newline := by
  induction s with
  | nil => simp [lines]
  | cons b s ih =>
    rw [List.cons_append]
    by_cases hb : b = Byte.newline
    · rw [hb, lines_cons_newline, List.length_cons, ih, List.count_cons_self]
    · obtain ⟨line, rest, hlines⟩ := exists_lines_cons (s := s ++ [Byte.newline]) (by simp)
      rw [hlines] at ih
      rw [lines_cons_of_ne hb hlines, List.count_cons_of_ne hb, ← ih]
      rfl

end Munch.Bytes
