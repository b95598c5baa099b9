import Munch.Reading

/-!
# Lexers

A lexer reads one source, a token at a time or all that are left at once. The first
diagnostic ends it: from then on every reading gives the same diagnostic. At the end of the
source every reading gives the same token.

## Main definitions

* `Lexer`, `Lexer.ofSource`: a lexer and its initial state.
* `Lexer.next`: the next token or the diagnostic.
* `Lexer.drain`: all remaining tokens, the end of the source included, or the diagnostic.
-/
namespace Munch

structure Lexer where
  source : Bytes
  cursor : Cursor
  failure : Option Diagnostic
deriving DecidableEq, Repr

namespace Lexer

def ofSource (source : Bytes) : Lexer := ⟨source, .ofSource source, none⟩

/-- The lexer after its cursor has moved: a diagnostic stays with it. -/
def after {α : Type} (l : Lexer) (outcome : Except Diagnostic α × Cursor) :
    Except Diagnostic α × Lexer :=
  match outcome with
  | (.ok a, c) => (.ok a, { l with cursor := c })
  | (.error d, c) => (.error d, { l with cursor := c, failure := some d })

def next (l : Lexer) : Except Diagnostic Token × Lexer :=
  match l.failure with
  | some d => (.error d, l)
  | none => l.after l.cursor.scan

def drain (l : Lexer) : Except Diagnostic (List Token) × Lexer :=
  match l.failure with
  | some d => (.error d, l)
  | none =>
    let reading := l.cursor.read []
    l.after (reading.outcome, reading.cursor)

/-- A diagnostic stays with the lexer. -/
theorem failure_after {α : Type} {l : Lexer} {outcome : Except Diagnostic α × Cursor}
    {d : Diagnostic} (h : (l.after outcome).1 = .error d) :
    (l.after outcome).2.failure = some d := by
  unfold after at h ⊢
  split <;> simp_all

theorem next_of_failure {l : Lexer} {d : Diagnostic} (h : l.failure = some d) :
    l.next = (.error d, l) := by
  simp [next, h]

theorem drain_of_failure {l : Lexer} {d : Diagnostic} (h : l.failure = some d) :
    l.drain = (.error d, l) := by
  simp [drain, h]

/-- A diagnostic is given again by the next reading. -/
theorem failure_of_next {l : Lexer} {d : Diagnostic} (h : l.next.1 = .error d) :
    l.next.2.failure = some d := by
  cases hfailure : l.failure with
  | some d' =>
    rw [next_of_failure hfailure] at h ⊢
    cases h
    exact hfailure
  | none =>
    simp only [next, hfailure] at h ⊢
    exact failure_after h

theorem failure_of_drain {l : Lexer} {d : Diagnostic} (h : l.drain.1 = .error d) :
    l.drain.2.failure = some d := by
  cases hfailure : l.failure with
  | some d' =>
    rw [drain_of_failure hfailure] at h ⊢
    cases h
    exact hfailure
  | none =>
    simp only [drain, hfailure] at h ⊢
    exact failure_after h

end Lexer

end Munch
