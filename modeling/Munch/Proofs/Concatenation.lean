import Munch.Proofs.Lexeme
import Munch.Proofs.Relocation

/-!
# Sources one below the other

If a source is lexed to its end and another source is put on a new line below it, then a lexer
gives the tokens of the first one and then the answers for the second one, shifted. The only
exception is a text of the first source whose closing quote stands after a backslash: a quote in the
second source would close it instead.
-/
namespace Munch

open Literal.Text (ClosesEscaped)

/-- The cursor on a new line behind a source is the start, shifted. -/
theorem Cursor.place_newline (s u : Bytes) :
    place (s ++ Byte.newline :: u) (s.length + 1) =
      (ofSource u).shift (s.length + 1) (1 + s.count Byte.newline) := by
  have hline : s ++ Byte.newline :: u = (s ++ [Byte.newline]) ++ u := by simp
  have hlength : s.length + 1 = (s ++ [Byte.newline]).length := by simp
  have hposition : (place (s ++ Byte.newline :: u) (s.length + 1)).position =
      Position.start.shift (1 + s.count Byte.newline) := by
    rw [position_place, hline, hlength, List.take_left, Position.after_append_singleton]
    simp [Position.step, Position.shift, Position.after, Position.start, Nat.add_comm]
  have hrest : (place (s ++ Byte.newline :: u) (s.length + 1)).rest = u := by
    rw [rest_place, hline, hlength, List.drop_left]
  have hoffset := offset_place (s ++ Byte.newline :: u) (s.length + 1)
  generalize place (s ++ Byte.newline :: u) (s.length + 1) = c at hposition hrest hoffset
  obtain ⟨rest, offset, position⟩ := c
  simp only at hposition hrest hoffset
  simp [shift, ofSource, hposition, hrest, hoffset]

/-- What stands in front of the end of a source is a gap. -/
theorem Cursor.isGap_of_scan_eof {source : Bytes} {offset : Nat} {t : Token} {c' : Cursor}
    (h : (place source offset).scan = (.ok t, c')) (ht : t.kind = .eof) :
    IsGap (source.drop offset) [] := by
  obtain ⟨gap, rest, hrest, hgap, hreads⟩ := (place source offset).exists_gap_reads
  rw [rest_place] at hrest
  rw [h] at hreads
  have hend := (hreads.atEnd_of_eof ht).1
  rw [rest_advance, rest_place, hrest, List.drop_left] at hend
  rw [hrest, hend, List.append_nil]
  exact hend ▸ hgap

namespace Lexer

/-- The tokens up to the end of a source come also if another source follows on a new line; then the
lexer answers as at the beginning of that line. -/
theorem pull_of_run {s : Bytes} (u : Bytes) {offset : Nat} {ts : List Token} {t : Token}
    {c' : Cursor} (hrun : (Cursor.place s offset).Run ts (.ok t) c') (hoffset : offset ≤ s.length)
    (htexts : Byte.quote ∉ u ∨ ∀ v ∈ ts, v.kind = .text →
      ¬ ClosesEscaped (s.slice v.span.first v.span.last)) (n : Nat) :
    (place (s ++ Byte.newline :: u) offset).pull (ts.length + n) =
      ts.map .ok ++ (place (s ++ Byte.newline :: u) (s.length + 1)).pull n := by
  generalize hc : Cursor.place s offset = c at hrun
  generalize hlast : Except.ok t = last at hrun
  induction hrun generalizing offset with
  | @stop c c' last hscan hkind =>
    subst hc hlast
    have hgap := (Cursor.isGap_of_scan_eof hscan (hkind t rfl)).append_newline u
    have hrest : (Cursor.place (s ++ Byte.newline :: u) offset).rest =
        (s.drop offset ++ [Byte.newline]) ++ u := by
      rw [Cursor.rest_place, List.drop_append_of_le_length hoffset]
      simp
    rw [List.length_nil, Nat.zero_add, List.map_nil, List.nil_append]
    refine pull_of_scan_eq rfl rfl ?_ n
    have hplace : offset + (s.length - offset + 1) = s.length + 1 := by omega
    simpa [place, hplace] using Cursor.scan_of_gap hgap hrest
  | @token c c' c'' v ts last hscan hv _ ih =>
    subst hc
    obtain ⟨rfl, rule, lexeme, hfinds⟩ := Cursor.exists_finds_of_scan hscan hv hoffset
    have hfinds' : Finds (s ++ Byte.newline :: u) offset rule lexeme v := by
      have hback : Finds (s ++ []) offset rule lexeme v := by rwa [List.append_nil]
      refine hback.before_white hfinds.last_le Grammar.newline_mem_white fun htext hcloses => ?_
      rcases htexts with hquote | htexts
      · exact hquote
      · exact absurd (hfinds.slice_eq ▸ hcloses)
          (htexts v (by simp) (hfinds.rule_eq_text_iff.1 htext))
    have hlater := htexts.imp_right fun h => (List.forall_mem_cons.1 h).2
    rw [List.length_cons, Nat.add_right_comm, pull, next_of_finds hfinds',
      ih hfinds.last_le hlater rfl hlast]
    rfl

/-- The law of concatenation. The tokens of a source that is lexed and the shifted answers for a
source on a new line below it are the answers for both together exactly if there is no quote in the
second source or no text of the first one closes after a backslash. -/
theorem pull_append_newline_iff {s : Bytes} {ts : List Token} {t : Token}
    (h : (ofSource s).drain.1 = .ok (ts ++ [t])) (u : Bytes) :
    (∀ n, (ofSource (s ++ Byte.newline :: u)).pull (ts.length + n) = ts.map .ok ++
        ((ofSource u).pull n).map (Outcome.shift (s.length + 1) (1 + s.count Byte.newline))) ↔
      Byte.quote ∉ u ∨ ∀ v ∈ ts, v.kind = .text →
        ¬ ClosesEscaped (s.slice v.span.first v.span.last) := by
  obtain ⟨c', hrun⟩ := exists_run_of_drain h
  constructor
  · -- A text that closes after a backslash is a token in front of both sources only if no quote
    -- comes after it.
    intro hlaw
    refine or_iff_not_imp_left.2 fun hquote v hv htext hcloses => ?_
    have hpull : (place (s ++ Byte.newline :: u) 0).pull ts.length = ts.map .ok := by
      simpa [pull, place_zero] using hlaw 0
    have hmem : .ok v ∈ (place (s ++ Byte.newline :: u) 0).pull ts.length := by
      rw [hpull]
      exact List.mem_map_of_mem hv
    obtain ⟨_, rule, lexeme, -, hfinds⟩ :=
      exists_finds_of_mem_pull (Nat.zero_le _) hmem (hrun.kind_ne_eof v hv)
    obtain ⟨stop, htiles, -⟩ := hrun.tiles (Nat.zero_le _)
    have hlast := (htiles.span_bounds v hv).2.2.trans htiles.last_le
    have hslice := hfinds.slice_eq
    rw [Bytes.slice_append_left hlast] at hslice
    have hnone := hfinds.quote_notMem (hfinds.rule_eq_text_iff.2 htext) (hslice ▸ hcloses)
    rw [List.drop_append_of_le_length hlast] at hnone
    exact hnone (by simp [not_not.1 hquote])
  · intro htexts n
    rw [← place_zero, pull_of_run u hrun (Nat.zero_le _) htexts n,
      pull_shift (l := ofSource u) rfl rfl (Cursor.place_newline s u)]

/-- The text of one backslash comes first above a label, but not above a quote. -/
theorem pull_append_newline_backslash :
    let s := Bytes.ascii "\"\\\\\""
    let v : Token := ⟨.text, .text [0x5C], ⟨0, 4⟩, ⟨1, 1⟩⟩
    let law := fun u => ∀ n, (ofSource (s ++ Byte.newline :: u)).pull ([v].length + n) =
      [v].map .ok ++
        ((ofSource u).pull n).map (Outcome.shift (s.length + 1) (1 + s.count Byte.newline))
    (ofSource s).drain.1 = .ok ([v] ++ [⟨.eof, .none, ⟨4, 4⟩, ⟨1, 5⟩⟩]) ∧ law (Bytes.ascii "x") ∧
      ¬ law (Bytes.ascii "\"") := by
  intro s v law
  have hlongest : longest? s = some ⟨.literal .text, 4⟩ := by decide +kernel
  have hread : Literal.read .text s = .ok (.text [0x5C]) := by
    rw [Literal.read, Literal.Text.unquote_of_ascii (by decide) (by decide)]
    rfl
  have hdrain : (ofSource s).drain.1 = .ok ([v] ++ [⟨.eof, .none, ⟨4, 4⟩, ⟨1, 5⟩⟩]) :=
    drain_of_applies (applies_of_longest? hlongest).1 (.literal hread)
  refine ⟨hdrain, (pull_append_newline_iff hdrain _).2 (Or.inl (by decide)), fun h => ?_⟩
  rcases (pull_append_newline_iff hdrain _).1 h with hquote | htexts
  · exact hquote (by decide)
  · exact htexts v List.mem_cons_self rfl rfl

end Lexer
end Munch
