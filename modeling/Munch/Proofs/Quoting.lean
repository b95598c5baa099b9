import Munch.Proofs.Refusal
import Munch.Proofs.TextExtent
import Munch.Proofs.WellFormed

/-!
# Quoting and unquoting

The literal that quotes a well-formed text is in the language of text literals and writes this
text. A text that ends in a backslash comes only from a literal whose body does, and it is quoted
by such a literal again.
-/
namespace Munch.Literal.Text

open Utf8 (WellFormed)

variable {b code value : Byte} {s t : Bytes}

/-! ## The table of escapes -/

theorem escapes_spec : ∀ e ∈ escapes, escapeValue? e.1 = some e.2 ∧ e.1 < 0x80 ∧ e.2 < 0x80 ∧
    (e.1 = Byte.backslash ↔ e.2 = Byte.backslash) := by
  simp only [escapes, List.forall_mem_cons, List.not_mem_nil, false_imp_iff, implies_true]
  decide

theorem mem_escapes_of_escapeValue? (h : escapeValue? code = some value) :
    (code, value) ∈ escapes := by
  obtain ⟨front, back, hsplit, -⟩ := List.lookup_eq_some_iff.1 h
  rw [hsplit]
  simp

/-- Every code that is written is read as the byte it was written for. -/
theorem mem_escapes_of_mem_writtenEscapes : ∀ e ∈ writtenEscapes, (e.2, e.1) ∈ escapes := by
  simp only [writtenEscapes, List.forall_mem_cons, List.not_mem_nil, false_imp_iff, implies_true]
  decide

theorem mem_escapes_of_escapeCode? (h : escapeCode? b = some code) : (code, b) ∈ escapes := by
  obtain ⟨front, back, hsplit, -⟩ := List.lookup_eq_some_iff.1 h
  exact mem_escapes_of_mem_writtenEscapes (b, code) (by rw [hsplit]; simp)

/-- A byte is written as a pair or as it is, but a quote and a backslash are never written as
they are. -/
theorem escape_cases (b : Byte) : (∃ code, escape b = [Byte.backslash, code] ∧ (code, b) ∈ escapes) ∨
    escape b = [b] ∧ b ≠ Byte.backslash ∧ b ≠ Byte.quote := by
  unfold escape
  cases h : escapeCode? b with
  | some code => exact Or.inl ⟨code, rfl, mem_escapes_of_escapeCode? h⟩
  | none =>
    refine Or.inr ⟨rfl, ?_, ?_⟩
    · rintro rfl
      exact absurd h (by decide)
    · rintro rfl
      exact absurd h (by decide)

theorem escape_of_not_ascii (hb : ¬ b < 0x80) : escape b = [b] := by
  rcases escape_cases b with ⟨code, -, hmem⟩ | ⟨hescape, -, -⟩
  · exact absurd (escapes_spec _ hmem).2.2.1 hb
  · exact hescape

/-! ## Decoding -/

/-- Between quotes ASCII bytes are decoded at once. -/
theorem unquote_of_ascii {literal : Bytes} (hascii : literal.all (fun b => b < 0x80) = true)
    (hquoted : isQuoted literal = true) : unquote literal = unescape 1 (body literal) := by
  rw [unquote, hquoted, Utf8.firstFault?_of_ascii hascii]
  rfl

theorem unescape_cons_of_ne (hb : b ≠ Byte.backslash) (index : Nat) (s : Bytes) :
    unescape index (b :: s) = (unescape (index + 1) s).map (b :: ·) := by
  cases s <;> simp [unescape, hb]

theorem unescape_pair (h : (code, value) ∈ escapes) (index : Nat) (s : Bytes) :
    unescape index (Byte.backslash :: code :: s) = (unescape (index + 2) s).map (value :: ·) := by
  rw [unescape, if_pos rfl]
  simp [(escapes_spec _ h).1]

theorem unescape_append_of_notMem (h : Byte.backslash ∉ s) (index : Nat) (t : Bytes) :
    unescape index (s ++ t) = (unescape (index + s.length) t).map (s ++ ·) := by
  induction s generalizing index with
  | nil => cases h : unescape index t <;> simp [h, Except.map]
  | cons b s ih =>
    obtain ⟨hb, hs⟩ := not_or.1 (List.mem_cons.not.1 h)
    rw [List.cons_append, unescape_cons_of_ne (Ne.symm hb), ih hs, List.length_cons,
      Nat.add_right_comm, Nat.add_assoc]
    cases unescape (index + (s.length + 1)) t <;> rfl

/-- Decoding undoes escaping. -/
theorem unescape_flatMap_escape (index : Nat) (s : Bytes) :
    unescape index (s.flatMap escape) = .ok s := by
  induction s generalizing index with
  | nil => rfl
  | cons b s ih =>
    rw [List.flatMap_cons]
    rcases escape_cases b with ⟨code, hescape, hmem⟩ | ⟨hescape, hb, -⟩
    · rw [hescape, List.cons_append, List.singleton_append, unescape_pair hmem, ih]
      rfl
    · rw [hescape, List.singleton_append, unescape_cons_of_ne hb, ih]
      rfl

theorem eq_nil_of_unescape {index : Nat} (h : unescape index t = .ok []) : t = [] := by
  fun_induction unescape index t with
  | case1 => rfl
  | case2 | case4 => cases h
  | case3 index code s value _ ih =>
    cases hs : unescape (index + 2) s <;> simp [hs, Except.map] at h
  | case5 index b s _ ih =>
    cases hs : unescape (index + 1) s <;> simp [hs, Except.map] at h

/-- A decoded text that ends in a backslash is written by a body that does. -/
theorem getLast?_of_unescape {index : Nat} (h : unescape index t = .ok s)
    (hlast : s.getLast? = some Byte.backslash) : t.getLast? = some Byte.backslash := by
  fun_induction unescape index t generalizing s with
  | case1 => cases h; cases hlast
  | case2 | case4 => cases h
  | case3 index code t value hvalue ih =>
    obtain ⟨s, hs, rfl⟩ := Except.exists_ok_of_map h
    have hcode := (escapes_spec _ (mem_escapes_of_escapeValue? hvalue)).2.2.2
    cases s with
    | nil =>
      obtain rfl := eq_nil_of_unescape hs
      exact congrArg some (hcode.2 (Option.some.inj hlast))
    | cons c s =>
      rw [List.getLast?_cons_cons] at hlast
      rw [List.getLast?_cons_cons, List.getLast?_cons, ih hs hlast]
      rfl
  | case5 index b t hb ih =>
    obtain ⟨s, hs, rfl⟩ := Except.exists_ok_of_map h
    cases s with
    | nil => exact absurd (Option.some.inj hlast) hb
    | cons c s =>
      rw [List.getLast?_cons_cons] at hlast
      rw [List.getLast?_cons, ih hs hlast]
      rfl

theorem getLast?_flatMap_escape_iff : (s.flatMap escape).getLast? = some Byte.backslash ↔
    s.getLast? = some Byte.backslash := by
  induction s using List.reverseRecOn with
  | nil => rfl
  | append_singleton s b _ =>
    rw [List.flatMap_append, List.flatMap_singleton, List.getLast?_concat]
    rcases escape_cases b with ⟨code, hescape, hmem⟩ | ⟨hescape, -, -⟩
    · have hcode := (escapes_spec _ hmem).2.2.2
      simpa [hescape] using hcode
    · simp [hescape]

/-! ## Well-formedness -/

/-- A code point is one byte below 0x80 or has none. -/
theorem ascii_or_not_ascii {point : Bytes} (h : Utf8.IsCodePoint point) :
    (∃ b, point = [b] ∧ b < 0x80) ∨ ∀ b ∈ point, ¬ b < 0x80 := by
  by_cases hascii : ∃ b ∈ point, b < 0x80
  · obtain ⟨b, hb, hlt⟩ := hascii
    exact Or.inl ⟨b, h.eq_of_ascii_mem hb hlt, hlt⟩
  · exact Or.inr fun b hb hlt => hascii ⟨b, hb, hlt⟩

theorem wellFormed_flatMap_escape (h : WellFormed s) : WellFormed (s.flatMap escape) := by
  induction h with
  | nil => exact .nil
  | @cons point s hpoint _ ih =>
    rw [List.flatMap_append]
    rcases ascii_or_not_ascii hpoint with ⟨b, rfl, hb⟩ | hnot
    · rw [List.flatMap_singleton]
      rcases escape_cases b with ⟨code, hescape, hmem⟩ | ⟨hescape, -, -⟩
      · have hcode := (escapes_spec _ hmem).2.1
        rw [hescape]
        exact Utf8.wellFormed_ascii_cons (by decide) (Utf8.wellFormed_ascii_cons hcode ih)
      · rw [hescape]
        exact Utf8.wellFormed_ascii_cons hb ih
    · have hplain : ∀ b ∈ point, escape b = [b] := fun b hb => escape_of_not_ascii (hnot b hb)
      rw [List.flatMap_congr hplain, List.flatMap_singleton']
      exact .cons hpoint ih

theorem wellFormed_of_unescape {index : Nat} (h : unescape index t = .ok s) (ht : WellFormed t) :
    WellFormed s := by
  induction hn : t.length using Nat.strongRecOn generalizing index t s with
  | ind n ih =>
    subst hn
    cases ht with
    | nil => cases h; exact .nil
    | @cons point rest hpoint hrest =>
      have hpos := List.length_pos_iff.2 hpoint.ne_nil
      rw [List.length_append] at ih
      by_cases hslash : Byte.backslash ∈ point
      · obtain rfl := hpoint.eq_of_ascii_mem hslash (by decide)
        cases rest with
        | nil => cases h
        | cons code rest =>
          rw [List.singleton_append, unescape, if_pos rfl] at h
          split at h
          · rename_i value hvalue
            obtain ⟨s, hs, rfl⟩ := Except.exists_ok_of_map h
            obtain ⟨-, hcode, hascii, -⟩ := escapes_spec _ (mem_escapes_of_escapeValue? hvalue)
            refine Utf8.wellFormed_ascii_cons hascii ?_
            exact ih rest.length (by simp; omega) hs (hrest.of_ascii_cons hcode) rfl
          · cases h
      · rw [unescape_append_of_notMem hslash] at h
        cases hs : unescape (index + point.length) rest with
        | error => rw [hs] at h; cases h
        | ok s' =>
          rw [hs] at h
          obtain rfl : point ++ s' = s := Except.ok.inj h
          exact .cons hpoint (ih rest.length (by omega) hs hrest rfl)

/-! ## Literals -/

theorem body_of_quotes (t : Bytes) : body (Byte.quote :: (t ++ [Byte.quote])) = t := by
  simp [body]

theorem isQuoted_iff {literal : Bytes} :
    isQuoted literal = true ↔ ∃ t, literal = Byte.quote :: (t ++ [Byte.quote]) := by
  simp only [isQuoted, Bool.and_eq_true, decide_eq_true_eq, beq_iff_eq]
  constructor
  · rintro ⟨⟨hlength, hhead⟩, hlast⟩
    obtain ⟨front, rfl⟩ := List.getLast?_eq_some_iff.1 hlast
    cases front with
    | nil => simp at hlength
    | cons c t =>
      obtain rfl : c = Byte.quote := Option.some.inj hhead
      exact ⟨t, List.cons_append⟩
  · rintro ⟨t, rfl⟩
    simp [List.getLast?_cons]

theorem isQuoted_quote (s : Bytes) : isQuoted (quote s) = true := isQuoted_iff.2 ⟨_, rfl⟩

/-- A literal that is read is a well-formed body between quotes. -/
theorem exists_body_of_unquote {literal : Bytes} (h : unquote literal = .ok s) : ∃ t,
    literal = Byte.quote :: (t ++ [Byte.quote]) ∧ WellFormed t ∧ unescape 1 t = .ok s := by
  unfold unquote at h
  split at h
  · cases h
  · rename_i hquoted
    obtain ⟨t, rfl⟩ := isQuoted_iff.1 (by simpa using hquoted)
    split at h
    · cases h
    · rename_i hfault
      rw [body_of_quotes] at h
      have hwell := (Utf8.firstFault?_eq_none_iff.1 hfault).of_ascii_cons (by decide)
      exact ⟨t, rfl, hwell.of_append_ascii (by decide), h⟩

theorem wellFormed_quote (h : WellFormed s) : WellFormed (quote s) :=
  Utf8.wellFormed_ascii_cons (by decide) <|
    (wellFormed_flatMap_escape h).append (Utf8.wellFormed_ascii_cons (by decide) .nil)

/-- A well-formed text is read back from the literal that quotes it. -/
theorem unquote_quote (h : WellFormed s) : unquote (quote s) = .ok s := by
  have hbody : body (quote s) = s.flatMap escape := body_of_quotes _
  have hfault := Utf8.firstFault?_eq_none_iff.2 (wellFormed_quote h)
  simp [unquote, isQuoted_quote, hfault, hbody, unescape_flatMap_escape]

/-! ## The language of literals -/

open Grammar (Escaped)

theorem escaped_flatMap_escape (s : Bytes) : Escaped false (s.flatMap escape) := by
  induction s with
  | nil => trivial
  | cons b s ih =>
    rw [List.flatMap_cons]
    rcases escape_cases b with ⟨code, hescape, -⟩ | ⟨hescape, -, hb⟩
    · rw [hescape]
      exact ⟨fun h => absurd h (by decide), fun _ => rfl, ih.mono⟩
    · rw [hescape]
      exact ⟨fun h => absurd h hb, ih.mono⟩

theorem quote_mem_text (s : Bytes) : quote s ∈ Grammar.text :=
  Grammar.mem_text_iff.2 ⟨_, escaped_flatMap_escape s, rfl⟩

/-- The closing quote of the literal stands after a backslash. -/
def ClosesEscaped (literal : Bytes) : Prop := literal.dropLast.getLast? = some Byte.backslash

theorem closesEscaped_iff (t : Bytes) :
    ClosesEscaped (Byte.quote :: (t ++ [Byte.quote])) ↔ t.getLast? = some Byte.backslash := by
  rw [ClosesEscaped, ← List.cons_append, List.dropLast_concat, List.getLast?_cons]
  cases t.getLast? <;> simp [Byte.quote, Byte.backslash]

/-- A quoted text closes after a backslash if and only if the text ends in one. -/
theorem closesEscaped_quote_iff : ClosesEscaped (quote s) ↔ s.getLast? = some Byte.backslash :=
  (closesEscaped_iff _).trans getLast?_flatMap_escape_iff

/-- Quoting gives a literal that closes after a backslash only if the one that was read does. -/
theorem closesEscaped_of_quote {literal : Bytes} (h : unquote literal = .ok s)
    (hquote : ClosesEscaped (quote s)) : ClosesEscaped literal := by
  obtain ⟨t, rfl, -, ht⟩ := exists_body_of_unquote h
  exact (closesEscaped_iff t).2 (getLast?_of_unescape ht (closesEscaped_quote_iff.1 hquote))

end Munch.Literal.Text
