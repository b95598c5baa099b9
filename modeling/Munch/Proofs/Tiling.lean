import Munch.Proofs.Run

/-!
# Tokens and gaps tile the source

The spans of the tokens that a lexer yields lie one behind the other in the source, and what is
between them are gaps. Together they cover the source up to its end, or up to the place at which
the lexer is stopped by a diagnostic.

## Main definitions

* `Bytes.slice`: the bytes of a source between two offsets.
* `Tiles`: gaps and tokens cover a part of a source.
* `pieces`: the gaps and lexemes of a part of a source in order.
* `StopsAt`: a diagnostic is about what stands at an offset.
-/
namespace Munch

/-! ## Slices -/

namespace Bytes

/-- The bytes of a source between two offsets. -/
def slice (source : Bytes) (first last : Nat) : Bytes := (source.drop first).take (last - first)

theorem slice_append_slice {source : Bytes} {first middle last : Nat} (h : first ≤ middle)
    (h' : middle ≤ last) :
    source.slice first middle ++ source.slice middle last = source.slice first last := by
  have hmiddle : source.drop middle = (source.drop first).drop (middle - first) := by
    rw [List.drop_drop, Nat.add_sub_cancel' h]
  rw [slice, slice, slice, hmiddle, ← List.take_add]
  congr 1
  omega

@[simp] theorem slice_zero_length (source : Bytes) : source.slice 0 source.length = source := by
  simp [slice]

end Bytes

/-! ## Tilings -/

/-- From one offset of a source to another there are the tokens in order, with gaps before, between
and behind them. -/
inductive Tiles (source : Bytes) : Nat → List Token → Nat → Prop
  | gap {first last : Nat} (hle : first ≤ last) (hlast : last ≤ source.length)
      (hgap : IsGap (source.slice first last) (source.drop last)) : Tiles source first [] last
  | token {first last : Nat} {t : Token} {ts : List Token} (hle : first ≤ t.span.first)
      (hgap : IsGap (source.slice first t.span.first) (source.drop t.span.first))
      (hpos : t.span.first < t.span.last) (h : Tiles source t.span.last ts last) :
      Tiles source first (t :: ts) last

/-- The gaps and lexemes from one offset of a source to another, in order. -/
def pieces (source : Bytes) (first : Nat) (ts : List Token) (last : Nat) : List Bytes :=
  match ts with
  | [] => [source.slice first last]
  | t :: ts => source.slice first t.span.first :: source.slice t.span.first t.span.last ::
      pieces source t.span.last ts last

namespace Tiles

variable {source : Bytes} {first last : Nat} {ts : List Token}

theorem last_le (h : Tiles source first ts last) : last ≤ source.length := by
  induction h with
  | gap _ hlast _ => exact hlast
  | token _ _ _ _ ih => exact ih

theorem add_length_le (h : Tiles source first ts last) : first + ts.length ≤ last := by
  induction h with
  | gap hle _ _ => simpa using hle
  | token hle _ hpos _ ih => rw [List.length_cons]; omega

/-- The spans are non-empty and in between the two offsets. -/
theorem span_bounds (h : Tiles source first ts last) : ∀ t ∈ ts,
    first ≤ t.span.first ∧ t.span.first < t.span.last ∧ t.span.last ≤ last := by
  induction h with
  | gap => simp
  | @token first last t ts hle _ hpos h ih =>
    have hlast := h.add_length_le
    refine List.forall_mem_cons.2 ⟨⟨hle, hpos, by omega⟩, fun u hu => ?_⟩
    obtain ⟨hfirst, hu⟩ := ih u hu
    exact ⟨by omega, hu⟩

theorem pairwise (h : Tiles source first ts last) :
    ts.Pairwise fun t u => t.span.last ≤ u.span.first := by
  induction h with
  | gap => exact .nil
  | token _ _ _ h ih => exact .cons (fun u hu => (h.span_bounds u hu).1) ih

theorem flatten_pieces (h : Tiles source first ts last) :
    (pieces source first ts last).flatten = source.slice first last := by
  induction h with
  | gap => simp [pieces]
  | @token first last t ts hle _ hpos h ih =>
    have hlast := h.add_length_le
    rw [pieces, List.flatten_cons, List.flatten_cons, ih,
      Bytes.slice_append_slice hpos.le (by omega), Bytes.slice_append_slice hle (by omega)]

end Tiles

/-! ## Where a lexer stops -/

/-- A diagnostic is about what stands at an offset: no rule has a lexeme there, or the literal that
applies there is refused at one of its bytes or at its end. -/
inductive StopsAt (source : Bytes) (stop : Nat) (d : Diagnostic) : Prop
  | unmatched (hkind : d.kind = .unmatchedCharacter) (hoffset : d.offset = stop)
      (h : Unmatched (source.drop stop))
  | refused {form : Literal} {lexeme : Bytes} {refusal : Refusal} (hkind : d.kind = refusal.fault.kind)
      (hoffset : d.offset = stop + min refusal.index lexeme.length)
      (h : Applies (.literal form) lexeme (source.drop stop))
      (hread : form.read lexeme = .error refusal)

theorem StopsAt.le_offset {source : Bytes} {stop : Nat} {d : Diagnostic}
    (h : StopsAt source stop d) : stop ≤ d.offset := by
  cases h with
  | unmatched _ hoffset => omega
  | refused _ hoffset => omega

/-- What a scan yields is at the end of the source, at a token or at a diagnostic. -/
def EndsAt (source : Bytes) (stop : Nat) : Except Diagnostic Token → Prop
  | .ok t => stop = source.length ∧ t.kind = .eof ∧ t.span = ⟨source.length, source.length⟩
  | .error d => stop < source.length ∧ StopsAt source stop d

namespace Cursor

variable {source : Bytes} {offset : Nat}

/-- A scan from an offset passes a gap and then reads. -/
theorem exists_slice_reads (h : offset ≤ source.length) : ∃ stop, offset ≤ stop ∧
    stop ≤ source.length ∧ IsGap (source.slice offset stop) (source.drop stop) ∧
      (place source stop).Reads (place source offset).scan := by
  obtain ⟨gap, rest, hrest, hgap, hreads⟩ := (place source offset).exists_gap_reads
  rw [rest_place] at hrest
  have hlength : source.length - offset = gap.length + rest.length := by
    simpa using congrArg List.length hrest
  refine ⟨offset + gap.length, by omega, by omega, ?_, by simpa using hreads⟩
  have hslice : source.slice offset (offset + gap.length) = gap := by simp [Bytes.slice, hrest]
  have hdrop : source.drop (offset + gap.length) = rest := by simp [← List.drop_drop, hrest]
  rwa [hslice, hdrop]

/-- A rule that applies at an offset has a non-empty lexeme inside of the source. -/
theorem span_of_applies {rule : Rule} {lexeme : Bytes}
    (h : Applies rule lexeme (place source offset).rest) :
    0 < lexeme.length ∧ offset + lexeme.length ≤ source.length := by
  have hpos := List.length_pos_iff.2 h.ne_nil
  have hle := h.head.length_le
  rw [rest_place, List.length_drop] at hle
  omega

/-- The token of a lexeme that a rule takes at an offset begins there, and the cursor behind the
lexeme stands where the token ends. -/
theorem token_of_applies {rule : Rule} {lexeme : Bytes} {kind : Kind} (payload : Payload)
    (h : Applies rule lexeme (place source offset).rest) (hkind : rule.kind? = some kind) :
    let t := (place source offset).token lexeme.length kind payload
    t.kind ≠ .eof ∧ t.span.first = offset ∧ offset < t.span.last ∧ t.span.last ≤ source.length ∧
      (place source offset).advance lexeme.length = place source t.span.last := by
  obtain ⟨hpos, hle⟩ := span_of_applies h
  refine ⟨fun heof => kind?_ne_eof _ h.mem_rules (hkind.trans (congrArg some heof)), ?_⟩
  simp only [token, offset_place, advance_place, true_and, and_true]
  exact ⟨Nat.lt_add_of_pos_right hpos, hle⟩

/-- Reading at an offset yields a token that begins there, or ends there. -/
theorem Reads.token_or_endsAt {outcome : Except Diagnostic Token} {c' : Cursor}
    (h : (place source offset).Reads (outcome, c')) (hoffset : offset ≤ source.length) :
    (∃ t, outcome = .ok t ∧ t.kind ≠ .eof ∧ t.span.first = offset ∧ offset < t.span.last ∧
      t.span.last ≤ source.length ∧ c' = place source t.span.last) ∨
    EndsAt source offset outcome := by
  cases h with
  | atEnd hend =>
    have hle : source.length ≤ offset := List.drop_eq_nil_iff.1 hend
    obtain rfl := Nat.le_antisymm hoffset hle
    exact Or.inr ⟨rfl, rfl, by simp [endToken]⟩
  | unmatched hne hu =>
    have hlt : offset < source.length := by
      by_contra hle
      exact hne (List.drop_eq_nil_of_le (not_lt.1 hle))
    exact Or.inr ⟨hlt, .unmatched rfl (offset_place source offset) hu⟩
  | fixed happlies => exact Or.inl ⟨_, rfl, token_of_applies _ happlies rfl⟩
  | literal happlies hread => exact Or.inl ⟨_, rfl, token_of_applies _ happlies rfl⟩
  | refused happlies hread =>
    have hspan := span_of_applies happlies
    refine Or.inr ⟨by omega, .refused rfl ?_ happlies hread⟩
    simp [report, Diagnostic.ofFault, advance_place]

/-- The tokens of a run tile the source up to its end or up to where a diagnostic stops it. -/
theorem Run.tiles {c' : Cursor} {ts : List Token} {last : Except Diagnostic Token}
    (h : (place source offset).Run ts last c') (hoffset : offset ≤ source.length) :
    ∃ stop, Tiles source offset ts stop ∧ EndsAt source stop last := by
  generalize hc : place source offset = c at h
  induction h generalizing offset with
  | @stop c c' last hscan hlast =>
    subst hc
    obtain ⟨stop, hle, hstop, hgap, hreads⟩ := exists_slice_reads hoffset
    rw [hscan] at hreads
    refine ⟨stop, .gap hle hstop hgap, ?_⟩
    rcases hreads.token_or_endsAt hstop with ⟨t, rfl, ht, -⟩ | hends
    · exact absurd (hlast t rfl) ht
    · exact hends
  | @token c c' c'' t ts last hscan ht _ ih =>
    subst hc
    obtain ⟨stop, hle, hstop, hgap, hreads⟩ := exists_slice_reads hoffset
    rw [hscan] at hreads
    rcases hreads.token_or_endsAt hstop with ⟨_, ht', -, rfl, hpos, hlast, rfl⟩ | ⟨-, heof, -⟩
    · cases ht'
      obtain ⟨stop, htiles, hends⟩ := ih hlast rfl
      exact ⟨stop, .token hle hgap hpos htiles, hends⟩
    · exact absurd heof ht

end Cursor

/-! ## The whole source -/

/-- No byte is lost and none is read twice. A lexer yields tokens one by one, not more than the
source has bytes, and then the end or a diagnostic; the tokens lie in order in the source with gaps
between them. At the end gaps and lexemes make up the source; a diagnostic is about what stands
behind the last gap. -/
theorem Lexer.pull_tiles (source : Bytes) :
    let l := ofSource source
    ∃ ts last, ts.length ≤ source.length ∧ l.pull (ts.length + 1) = ts.map .ok ++ [last] ∧
      (∀ t ∈ ts, t.kind ≠ .eof ∧ t.span.first < t.span.last ∧ t.span.last ≤ source.length) ∧
      (ts.Pairwise fun t u => t.span.last ≤ u.span.first) ∧
      match last with
      | .ok t =>
        t.kind = .eof ∧ t.span = ⟨source.length, source.length⟩ ∧ l.drain.1 = .ok (ts ++ [t]) ∧
          Tiles source 0 ts source.length ∧ (pieces source 0 ts source.length).flatten = source
      | .error d =>
        l.drain.1 = .error d ∧ ∃ stop < source.length, Tiles source 0 ts stop ∧
          StopsAt source stop d ∧ ∀ t ∈ ts, t.span.last ≤ d.offset := by
  intro l
  obtain ⟨ts, last, c', hrun⟩ := (Cursor.place source 0).exists_run
  have hcursor : l.cursor.Run ts last c' := by rwa [Cursor.place, Cursor.advance_zero] at hrun
  obtain ⟨stop, htiles, hends⟩ := hrun.tiles (Nat.zero_le _)
  have hstop := htiles.last_le
  have hlength := htiles.add_length_le
  refine ⟨ts, last, by omega, hcursor.pull_eq rfl, fun t ht => ?_, htiles.pairwise, ?_⟩
  · obtain ⟨-, hpos, hlast⟩ := htiles.span_bounds t ht
    exact ⟨hrun.kind_ne_eof t ht, hpos, hlast.trans hstop⟩
  · have hdrain := hcursor.drain_eq rfl
    cases last with
    | ok t =>
      obtain ⟨rfl, heof, hspan⟩ := hends
      refine ⟨heof, hspan, congrArg Prod.fst hdrain, htiles, ?_⟩
      rw [htiles.flatten_pieces, Bytes.slice_zero_length]
    | error d =>
      obtain ⟨hlt, hstops⟩ := hends
      refine ⟨congrArg Prod.fst hdrain, stop, hlt, htiles, hstops, fun t ht => ?_⟩
      exact (htiles.span_bounds t ht).2.2.trans hstops.le_offset

end Munch
