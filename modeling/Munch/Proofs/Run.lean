import Munch.Lexer
import Munch.Proofs.Scan

/-!
# Runs

A run is what a cursor goes through until the end of the source or the first diagnostic. Every
cursor has one, and reading token by token and reading all at once both follow it. What holds
of all tokens of a source is shown by induction on its run.

## Main definitions

* `Cursor.Run`: the tokens before the end, what stands at the end, and the last cursor.
* `Lexer.pull`: the answers to some readings of one token each.
-/
namespace Munch

/-- A scan of the run's last step yields the end of the source or a diagnostic. -/
def IsLast (outcome : Except Diagnostic Token) : Prop := ∀ t, outcome = .ok t → t.kind = .eof

namespace Cursor

/-- From a cursor the tokens are yielded one by one, then the end or a diagnostic. -/
inductive Run : Cursor → List Token → Except Diagnostic Token → Cursor → Prop
  | stop {c c' : Cursor} {last : Except Diagnostic Token} (h : c.scan = (last, c'))
      (hlast : IsLast last) : Run c [] last c'
  | token {c c' c'' : Cursor} {t : Token} {ts : List Token} {last : Except Diagnostic Token}
      (h : c.scan = (.ok t, c')) (ht : t.kind ≠ .eof) (hrun : Run c' ts last c'') :
      Run c (t :: ts) last c''

/-- Behind the end a scan yields the end again. -/
theorem scan_of_scan_eof {c c' : Cursor} {t : Token} (h : c.scan = (.ok t, c'))
    (ht : t.kind = .eof) : c'.scan = (.ok t, c') := by
  obtain ⟨gap, rest, -, -, hreads⟩ := c.exists_gap_reads
  rw [h] at hreads
  obtain ⟨hend, rfl, rfl⟩ := hreads.atEnd_of_eof ht
  exact scan_of_rest_nil hend

theorem exists_run (c : Cursor) : ∃ ts last c', c.Run ts last c' := by
  induction hn : c.rest.length using Nat.strongRecOn generalizing c with
  | ind n ih =>
    subst hn
    rcases hscan : c.scan with ⟨last, c'⟩
    by_cases hlast : IsLast last
    · exact ⟨[], last, c', .stop hscan hlast⟩
    · obtain ⟨t, rfl, ht⟩ : ∃ t, last = .ok t ∧ t.kind ≠ .eof := by
        simpa [IsLast] using hlast
      have hlt := length_rest_scan_lt (c := c) (t := t) (by rw [hscan]) ht
      obtain ⟨ts, last, c'', hrun⟩ := ih _ (by simpa [hscan] using hlt) c' rfl
      exact ⟨t :: ts, last, c'', .token hscan ht hrun⟩

namespace Run

variable {c c' : Cursor} {ts : List Token} {last : Except Diagnostic Token}

theorem isLast (h : c.Run ts last c') : IsLast last := by
  induction h with
  | stop _ hlast => exact hlast
  | token _ _ _ ih => exact ih

theorem kind_ne_eof (h : c.Run ts last c') : ∀ t ∈ ts, t.kind ≠ .eof := by
  induction h with
  | stop => simp
  | token _ ht _ ih => exact List.forall_mem_cons.2 ⟨ht, ih⟩

/-- Cursors that scan alike have the same runs. -/
theorem of_scan_eq {d : Cursor} (h : d.Run ts last c') (hscan : c.scan = d.scan) :
    c.Run ts last c' := by
  cases h with
  | stop h hlast => exact .stop (hscan.trans h) hlast
  | token h ht hrun => exact .token (hscan.trans h) ht hrun

/-- Behind the end there is nothing but the end. -/
theorem run_end {t : Token} (h : c.Run ts (.ok t) c') : c'.Run [] (.ok t) c' := by
  generalize hlast : Except.ok t = last at h
  induction h with
  | stop h hkind =>
    subst hlast
    exact .stop (scan_of_scan_eof h (hkind t rfl)) hkind
  | token _ _ _ ih => exact ih hlast

/-- The run is what is read. -/
theorem read_eq (h : c.Run ts last c') : c.read [] =
    match last with
    | .ok t => ⟨ts ++ [t], none, c'⟩
    | .error d => ⟨ts, some d, c'⟩ := by
  induction h with
  | @stop c c' last h hlast =>
    cases last with
    | ok t => exact read_of_scan_eof h (hlast t rfl) []
    | error d => exact read_of_scan_error h []
  | @token c c' c'' t ts last h ht _ ih =>
    have happend := read_append c' [] [t]
    rw [read_of_scan_token h ht, show [t] = [] ++ [t] from rfl, happend, ih]
    cases last <;> rfl

end Run
end Cursor

namespace Lexer

/-- The answers to `n` readings of one token each. -/
def pull : Nat → Lexer → List (Except Diagnostic Token)
  | 0, _ => []
  | n + 1, l => l.next.1 :: l.next.2.pull n

theorem next_of_scan_ok {l : Lexer} {t : Token} {c' : Cursor} (hl : l.failure = none)
    (h : l.cursor.scan = (.ok t, c')) : l.next = (.ok t, { l with cursor := c' }) := by
  simp [next, hl, h, after]

theorem next_of_scan_error {l : Lexer} {d : Diagnostic} {c' : Cursor} (hl : l.failure = none)
    (h : l.cursor.scan = (.error d, c')) :
    l.next = (.error d, { l with cursor := c', failure := some d }) := by
  simp [next, hl, h, after]

end Lexer

namespace Cursor.Run

variable {l : Lexer} {c' : Cursor} {ts : List Token} {last : Except Diagnostic Token}

/-- Reading token by token follows the run. -/
theorem pull_eq (h : l.cursor.Run ts last c') (hl : l.failure = none) :
    l.pull (ts.length + 1) = ts.map .ok ++ [last] := by
  generalize hc : l.cursor = c at h
  induction h generalizing l with
  | @stop c c' last h hlast =>
    subst hc
    cases last with
    | ok t => simp [Lexer.pull, Lexer.next_of_scan_ok hl h]
    | error d => simp [Lexer.pull, Lexer.next_of_scan_error hl h]
  | @token c c' c'' t ts last h ht _ ih =>
    subst hc
    have hrest := @ih { l with cursor := c' } hl rfl
    rw [List.length_cons, Lexer.pull, Lexer.next_of_scan_ok hl h]
    simp only [hrest, List.map_cons, List.cons_append]

/-- Reading all at once follows the run. -/
theorem drain_eq (h : l.cursor.Run ts last c') (hl : l.failure = none) : l.drain =
    match last with
    | .ok t => (.ok (ts ++ [t]), { l with cursor := c' })
    | .error d => (.error d, { l with cursor := c', failure := some d }) := by
  have hread := h.read_eq
  cases last with
  | ok t => simp [Lexer.drain, hl, hread, Lexer.after, Reading.outcome]
  | error d => simp [Lexer.drain, hl, hread, Lexer.after, Reading.outcome]

end Cursor.Run

namespace Lexer

variable {l : Lexer}

/-- From a diagnostic on a lexer gives this diagnostic. -/
theorem pull_of_failure {d : Diagnostic} (h : l.failure = some d) (n : Nat) :
    l.pull n = List.replicate n (.error d) := by
  induction n with
  | zero => rfl
  | succ n ih =>
    rw [pull, next_of_failure h, ih, List.replicate_succ]

/-- From the end on a lexer gives the end. -/
theorem pull_of_scan_eof {t : Token} {c' : Cursor} (hl : l.failure = none)
    (h : l.cursor.scan = (.ok t, c')) (ht : t.kind = .eof) (n : Nat) :
    l.pull n = List.replicate n (.ok t) := by
  induction n generalizing l with
  | zero => rfl
  | succ n ih =>
    have hend := Cursor.scan_of_scan_eof h ht
    rw [pull, next_of_scan_ok hl h, ih (l := { l with cursor := c' }) hl hend, List.replicate_succ]

/-- A lexer that still yields a token before the end has not come to the end. -/
theorem kind_ne_eof_of_mem_pull {t u : Token} {n : Nat} (hl : l.failure = none)
    (hnext : l.next.1 = .ok u) (h : .ok t ∈ l.pull n) (ht : t.kind ≠ .eof) : u.kind ≠ .eof := by
  intro hu
  rcases hscan : l.cursor.scan with ⟨d | v, c'⟩
  · rw [next_of_scan_error hl hscan] at hnext
    cases hnext
  · rw [next_of_scan_ok hl hscan] at hnext
    cases hnext
    rw [pull_of_scan_eof hl hscan hu] at h
    cases List.eq_of_mem_replicate h
    exact ht hu

end Lexer

/-- What is read all at once was run through from the beginning of the source to its end. -/
theorem Lexer.exists_run_of_ok {source : Bytes} {ts : List Token}
    (h : (ofSource source).drain.1 = .ok ts) :
    ∃ us t c', ts = us ++ [t] ∧ (Cursor.place source 0).Run us (.ok t) c' := by
  obtain ⟨us, last, c', hrun⟩ := (ofSource source).cursor.exists_run
  have hdrain := congrArg Prod.fst (hrun.drain_eq rfl)
  rw [h] at hdrain
  cases last with
  | error d => cases hdrain
  | ok t => exact ⟨us, t, c', Except.ok.inj hdrain, by rwa [Cursor.place, Cursor.advance_zero]⟩

theorem Lexer.exists_run_of_drain {source : Bytes} {ts : List Token} {t : Token}
    (h : (ofSource source).drain.1 = .ok (ts ++ [t])) :
    ∃ c', (Cursor.place source 0).Run ts (.ok t) c' := by
  obtain ⟨us, u, c', heq, hrun⟩ := exists_run_of_ok h
  obtain ⟨rfl, hlast⟩ := List.append_inj' heq rfl
  obtain rfl : t = u := List.singleton_inj.1 hlast
  exact ⟨c', hrun⟩

end Munch
