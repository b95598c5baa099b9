import Munch.Proofs.Boundary
import Munch.Proofs.Scan

/-!
# Gaps are passed over

A scan that stands before a gap goes on as one that stands behind it. A gap need not be split into
the longest runs and comments: white space that stands between two lexemes merges with the white
space around it. What follows a gap matters only in so far as a comment has to end before it.
-/
namespace Munch

/-! ## Gaps -/

namespace IsGap

variable {gap gap' rest rest' : Bytes}

/-- A gap stays one in front of another text that begins with the same byte or on a new line. -/
theorem of_head (h : IsGap gap rest)
    (hhead : rest'.head? = rest.head? ∨ rest'.head? = some Byte.newline) : IsGap gap rest' := by
  induction h with
  | nil => exact .nil rest'
  | whitespace hrun _ ih => exact .whitespace hrun (ih hhead)
  | @comment line gap rest hline hend _ ih =>
    refine .comment hline ?_ (ih hhead)
    cases gap with
    | cons b gap => simpa using hend
    | nil =>
      rcases hhead with hhead | hhead
      · rw [← List.head?_eq_none_iff, List.nil_append] at hend ⊢
        rwa [hhead]
      · exact Or.inr hhead

theorem append (h : IsGap gap (gap' ++ rest)) (h' : IsGap gap' rest) :
    IsGap (gap ++ gap') rest := by
  generalize hback : gap' ++ rest = back at h
  induction h with
  | nil => exact h'
  | whitespace hrun _ ih =>
    rw [List.append_assoc]
    exact .whitespace hrun (ih hback)
  | comment hline hend _ ih =>
    rw [List.append_assoc]
    refine .comment hline ?_ (ih hback)
    rwa [List.append_assoc, hback]

theorem white {b : Byte} (hb : b ∈ Grammar.white) (rest : Bytes) : IsGap [b] rest := by
  have hrun : [b] ∈ Grammar.whitespace :=
    Grammar.mem_many_byte.2 ⟨by simp, fun _ hc => List.mem_singleton.1 hc ▸ hb⟩
  exact .whitespace hrun (.nil rest)

/-- What stands at the end of a source is a gap also in front of a new line. -/
theorem append_newline (h : IsGap gap []) (rest : Bytes) : IsGap (gap ++ [Byte.newline]) rest :=
  (h.of_head (Or.inr rfl)).append (white Grammar.newline_mem_white rest)

end IsGap

/-! ## Layout that applies -/

/-- A run of white space applies where no white byte follows. -/
theorem applies_whitespace {run rest : Bytes} (hrun : run ∈ Grammar.whitespace)
    (hrest : ∀ b, rest.head? = some b → b ∉ Grammar.white) :
    Applies (.layout .whitespace) run (run ++ rest) := by
  obtain ⟨hne, hwhite⟩ := Grammar.mem_many_byte.1 hrun
  refine ⟨List.prefix_append _ _, hne, fun r hr w hw hs => ?_, [], rules.drop 1, rfl, hrun, by simp⟩
  rcases prefix_append_cases hs with hle | ⟨d, u, rfl, hu⟩
  · exact hle.length_le
  · -- A longer lexeme begins with white space and has the byte that follows.
    obtain ⟨b, run, rfl⟩ := List.exists_cons_of_ne_nil hne
    obtain ⟨rest, rfl⟩ := hu
    have hb := hwhite b (by simp)
    have hkind : r.kind? = none := by
      by_contra hkind
      exact Rule.notMem_white_of_head hr hkind hw hb
    cases r with
    | fixed | literal => cases hkind
    | layout form =>
      cases form with
      | comment =>
        obtain rfl : b = 0x2D := Rule.head_mem hw
        simp [Grammar.white] at hb
      | whitespace => exact absurd ((Grammar.mem_many_byte.1 hw).2 d (by simp)) (hrest d rfl)

/-- Two dashes and what stands behind them up to the end of the line apply as a comment. -/
theorem applies_comment {line rest : Bytes} (hline : Byte.newline ∉ line)
    (hend : rest = [] ∨ rest.head? = some Byte.newline) :
    Applies (.layout .comment) (Bytes.ascii "--" ++ line) (Bytes.ascii "--" ++ line ++ rest) := by
  have hmem : Bytes.ascii "--" ++ line ∈ Rule.language (.layout .comment) :=
    ⟨_, rfl, line, Grammar.mem_star_byte.2 (by rintro b hb rfl; exact hline hb), rfl⟩
  have hdash : (0x2D : Byte) ∉ Grammar.white := by simp [Grammar.white]
  refine ⟨List.prefix_append _ _, List.cons_ne_nil _ _, fun r hr w hw hs => ?_,
    [.layout .whitespace], rules.drop 2, rfl, hmem, ?_⟩
  · rcases prefix_append_cases hs with hle | ⟨b, u, rfl, hu⟩
    · exact hle.length_le
    · -- A longer lexeme begins with two dashes and has the line feed.
      obtain ⟨rest, rfl⟩ := hu
      obtain rfl : b = Byte.newline := by simpa using hend
      have hkind : r.kind? = none := by
        by_contra hkind
        exact Rule.not_dashes_prefix hr hkind hw rfl
      cases r with
      | fixed | literal => cases hkind
      | layout form =>
        cases form with
        | whitespace => exact absurd (Rule.head_mem hw) hdash
        | comment =>
          obtain ⟨_, rfl, line', hline', heq⟩ := hw
          have heq : line' = line ++ Byte.newline :: u := (List.cons.inj (List.cons.inj heq).2).2
          exact absurd rfl (Grammar.mem_star_byte.1 hline' Byte.newline (by simp [heq]))
  · intro r hr hw
    obtain rfl := List.mem_singleton.1 hr
    exact hdash (Rule.head_mem hw)

namespace Cursor

/-- A scan passes all white bytes at once. -/
theorem scan_eq_behind_whitespace (c : Cursor) :
    c.scan = (c.advance (c.rest.takeWhile Byte.isWhite).length).scan := by
  cases hrun : c.rest.takeWhile Byte.isWhite with
  | nil => simp
  | cons b run =>
    have hwhite : b :: run ∈ Grammar.whitespace := by
      refine Grammar.mem_many_byte.2 ⟨by simp, fun d hd => ?_⟩
      exact Grammar.mem_of_mem_takeWhile Grammar.isWhite_iff (hrun ▸ hd)
    have hbehind : ∀ d, (c.rest.dropWhile Byte.isWhite).head? = some d → d ∉ Grammar.white := by
      intro d hd hmem
      have hnot := List.head?_dropWhile_not Byte.isWhite c.rest
      rw [hd] at hnot
      exact Bool.false_ne_true (hnot.symm.trans (Grammar.isWhite_iff.2 hmem))
    have happlies := applies_whitespace hwhite hbehind
    rw [← hrun, List.takeWhile_append_dropWhile, hrun] at happlies
    exact scan_of_applies_layout happlies

/-- Some white bytes at the head of the rest may be left out. -/
theorem scan_of_whitespace {c : Cursor} {run rest : Bytes} (hrun : run ∈ Grammar.whitespace)
    (hc : c.rest = run ++ rest) : c.scan = (c.advance run.length).scan := by
  have hwhite : ∀ b ∈ run, b.isWhite = true := fun b hb =>
    Grammar.isWhite_iff.2 ((Grammar.mem_many_byte.1 hrun).2 b hb)
  have hbehind : (c.advance run.length).rest = rest := by rw [rest_advance, hc, List.drop_left]
  rw [scan_eq_behind_whitespace c, scan_eq_behind_whitespace (c.advance run.length), hbehind, hc,
    List.takeWhile_append_of_pos hwhite, List.length_append, advance_advance]

/-- Behind a gap a scan goes on as in front of it. -/
theorem scan_of_gap {gap rest : Bytes} (h : IsGap gap rest) {c : Cursor}
    (hc : c.rest = gap ++ rest) : c.scan = (c.advance gap.length).scan := by
  induction h generalizing c with
  | nil => simp
  | @whitespace run gap rest hrun _ ih =>
    rw [List.append_assoc] at hc
    have hbehind : (c.advance run.length).rest = gap ++ rest := by
      rw [rest_advance, hc, List.drop_left]
    rw [scan_of_whitespace hrun hc, ih hbehind, advance_advance, ← List.length_append]
  | @comment line gap rest hline hend _ ih =>
    rw [List.append_assoc] at hc
    have hbehind : (c.advance (Bytes.ascii "--" ++ line).length).rest = gap ++ rest := by
      rw [rest_advance, hc, List.drop_left]
    rw [scan_of_applies_layout (hc ▸ applies_comment hline hend), ih hbehind, advance_advance,
      ← List.length_append]

end Cursor
end Munch
