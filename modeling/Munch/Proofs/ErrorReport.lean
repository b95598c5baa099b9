import Munch.Proofs.Lexeme
import Munch.Proofs.RefusedLexeme
import Munch.Proofs.Stream

/-!
# Error reports are exact

A source is reported for one of four kinds of faults. The report points at a byte of the source,
which for an escape is its backslash, and quotes the character that stands there, or the one byte
if none does. Whether one does is decided in the whole source, while a literal is checked by itself;
both agree since no code point goes beyond the end of a literal.

## Main definitions

* `Cursor.Passes`: a property of offsets that gaps and lexemes keep.
* `Cursor.Reports`: what a diagnostic of a source can be.
* `Diagnostic.Exact`: a diagnostic is right about the source.
-/
namespace Munch

namespace Cursor

variable {source : Bytes} {offset stop : Nat}

/-! ## Places where a run reads -/

/-- A property of offsets that holds behind gaps and lexemes if it holds in front of them. -/
structure Passes (source : Bytes) (P : Nat → Prop) : Prop where
  gap {first last : Nat} (hle : first ≤ last)
    (h : IsGap (source.slice first last) (source.drop last)) : P first → P last
  lexeme {first : Nat} {rule : Rule} {lexeme : Bytes}
    (h : Applies rule lexeme (source.drop first)) : P first → P (first + lexeme.length)

/-- A token that is read is the lexeme that stands there, and the scan goes on behind it. -/
theorem Reads.exists_lexeme {t : Token} {c' : Cursor}
    (h : (place source stop).Reads (.ok t, c')) (ht : t.kind ≠ .eof) : ∃ rule lexeme,
      Applies rule lexeme (source.drop stop) ∧ t.span = ⟨stop, stop + lexeme.length⟩ ∧
        t.position = (place source stop).position ∧ c' = place source (stop + lexeme.length) := by
  rcases h.token_cases with ⟨-, rfl, -⟩ | ⟨rule, lexeme, kind, payload, happlies, -, rfl, rfl⟩
  · exact absurd rfl ht
  · exact ⟨rule, lexeme, happlies, by simp [token], rfl, advance_place _ _ _⟩

/-- Every outcome of a run is read at a place of the source with a property that passes. -/
theorem Run.forall_reads {P : Nat → Prop} (hP : Passes source P) {c' : Cursor} {ts : List Token}
    {last : Except Diagnostic Token} (h : (place source offset).Run ts last c')
    (hoffset : offset ≤ source.length) (hstart : P offset) :
    (∀ t ∈ ts, ∃ stop ≤ source.length, P stop ∧ ∃ c, (place source stop).Reads (.ok t, c)) ∧
      ∃ stop ≤ source.length, P stop ∧ (place source stop).Reads (last, c') := by
  generalize hc : place source offset = c at h
  induction h generalizing offset with
  | stop hscan =>
    subst hc
    obtain ⟨stop, hle, hstop, hgap, hreads⟩ := exists_slice_reads hoffset
    rw [hscan] at hreads
    exact ⟨by simp, stop, hstop, hP.gap hle hgap hstart, hreads⟩
  | token hscan ht _ ih =>
    subst hc
    obtain ⟨stop, hle, hstop, hgap, hreads⟩ := exists_slice_reads hoffset
    rw [hscan] at hreads
    have hhere := hP.gap hle hgap hstart
    obtain ⟨rule, lexeme, happlies, -, -, rfl⟩ := hreads.exists_lexeme ht
    obtain ⟨hts, hlast⟩ := ih (span_of_applies happlies).2 (hP.lexeme happlies hhere) rfl
    exact ⟨List.forall_mem_cons.2 ⟨⟨stop, hstop, hhere, _, hreads⟩, hts⟩, hlast⟩

/-! ## Reports -/

/-- A byte of what stands at a place is a byte of the source. -/
theorem add_lt_length {lexeme rest : Bytes} {index : Nat}
    (hrest : source.drop stop = lexeme ++ rest) (hindex : index < lexeme.length) :
    stop + index < source.length := by
  have hlength := congrArg List.length hrest
  rw [List.length_drop, List.length_append] at hlength
  omega

/-- At a place of the source no rule matches, or the lexeme that stands there is refused. -/
inductive Reports (source : Bytes) (stop : Nat) : Diagnostic → Prop
  | unmatched (hne : source.drop stop ≠ []) (h : Unmatched (source.drop stop)) :
      Reports source stop
        ((place source stop).report (.unmatched (Utf8.fragment (source.drop stop))))
  | refused {form : Literal} {lexeme rest : Bytes} {refusal : Refusal}
      (hrest : source.drop stop = lexeme ++ rest)
      (h : Applies (.literal form) lexeme (lexeme ++ rest))
      (hrefuses : form.Refuses lexeme refusal) :
      Reports source stop ((place source (stop + refusal.index)).report refusal.fault)

/-- A refusal is about a byte of the lexeme, so that the offset is never cut off at its end. -/
theorem Reads.reports {d : Diagnostic} {c' : Cursor}
    (h : (place source stop).Reads (.error d, c')) : Reports source stop d := by
  generalize houtcome : (Except.error d, c') = outcome at h
  cases h with
  | atEnd | fixed | literal => cases houtcome
  | unmatched hne hu =>
    cases houtcome
    exact .unmatched hne hu
  | @refused form lexeme refusal happlies hread =>
    cases houtcome
    have hrefuses := Literal.refuses_of_read happlies.mem_language hread
    obtain ⟨rest, hrest⟩ := happlies.head
    rw [rest_place] at hrest happlies
    have hindex := hrefuses.index_lt happlies.ne_nil
    rw [advance_place, Nat.min_eq_left hindex.le]
    exact .refused hrest.symm (hrest ▸ happlies) hrefuses

end Cursor

/-! ## Exactness -/

/-- The diagnostic has one of the four kinds, its offset is one of a byte of the source, and its
fragment is the character that stands there or this byte alone. -/
structure Diagnostic.Exact (source : Bytes) (d : Diagnostic) : Prop where
  kind : d.kind ∈ [.unmatchedCharacter, .invalidEscape, .invalidUtf8] ∨
    d.kind = .invalidNumericLiteral ∧ d.message = .ascii "double literal out of range"
  offset_lt : d.offset < source.length
  fragment_ne_nil : d.fragment ≠ []
  fragment_eq : d.fragment = source.slice d.offset (d.offset + d.fragment.length)
  fragment_of_char (c : Char) (h : String.utf8EncodeChar c <+: source.drop d.offset) :
    d.fragment = String.utf8EncodeChar c
  length_fragment (h : ∀ c, ¬ String.utf8EncodeChar c <+: source.drop d.offset) :
    d.fragment.length = 1
  backslash (h : d.kind = .invalidEscape) : source[d.offset]? = some Byte.backslash
  no_char (h : d.kind = .invalidUtf8) :
    (∀ c, ¬ String.utf8EncodeChar c <+: source.drop d.offset) ∧ d.fragment.length = 1

namespace Cursor

variable {source : Bytes} {offset stop : Nat}

/-- A report at a byte of the source is exact if its kind is right about what stands there. -/
theorem exact_report {fault : Fault} (hoffset : offset < source.length)
    (hkind : fault.kind ∈ [.unmatchedCharacter, .invalidEscape, .invalidUtf8] ∨
      fault = .outOfRange)
    (hbackslash : fault.kind = .invalidEscape → source[offset]? = some Byte.backslash)
    (hchar : fault.kind = .invalidUtf8 → Utf8.codePointLength? (source.drop offset) = none) :
    ((place source offset).report fault).Exact source := by
  have hplace : ((place source offset).report fault).offset = offset := offset_place source offset
  have hne : source.drop offset ≠ [] := by simpa using hoffset
  have hlength (h : Utf8.codePointLength? (source.drop offset) = none) :
      (Utf8.fragment (source.drop offset)).length = 1 := by
    have := List.length_pos_iff.2 hne
    rw [Utf8.fragment_of_none h, List.length_take]
    omega
  constructor
  case kind =>
    refine hkind.imp id ?_
    rintro rfl
    exact ⟨rfl, rfl⟩
  case offset_lt => rwa [hplace]
  case fragment_ne_nil => exact Utf8.fragment_ne_nil hne
  case fragment_eq =>
    rw [hplace, Bytes.slice, Nat.add_sub_cancel_left]
    exact List.prefix_iff_eq_take.1 (Utf8.fragment_prefix _)
  case fragment_of_char =>
    rw [hplace]
    exact fun c => Utf8.fragment_of_char
  case length_fragment =>
    rw [hplace]
    exact fun h => hlength (Utf8.codePointLength?_eq_none_iff.2 h)
  case backslash => rwa [hplace]
  case no_char =>
    rw [hplace]
    exact fun h => ⟨Utf8.codePointLength?_eq_none_iff.1 (hchar h), hlength (hchar h)⟩

/-- A literal that is refused for its UTF-8 has no character at the faulty byte in the whole source
either. -/
theorem codePointLength?_of_refused {form : Literal} {lexeme rest : Bytes} {index : Nat}
    (hrest : source.drop stop = lexeme ++ rest)
    (h : Applies (.literal form) lexeme (lexeme ++ rest))
    (hfault : Utf8.firstFault? lexeme = some index) :
    Utf8.codePointLength? (source.drop (stop + index)) = none := by
  obtain ⟨hindex, -, hnone⟩ := Utf8.firstFault?_eq_some_iff.1 hfault
  have hsplit : source.drop (stop + index) = lexeme.drop index ++ rest := by
    rw [← List.drop_drop, hrest, List.drop_append_of_le_length hindex.le]
  rw [hsplit, (h.seam.drop index).codePointLength?_append (by simpa using hindex), hnone]

theorem Reports.exact {d : Diagnostic} (h : Reports source stop d) : d.Exact source := by
  cases h with
  | unmatched hne =>
    exact exact_report (by simpa using hne) (Or.inl (by simp [Fault.kind])) (by rintro ⟨⟩)
      (by rintro ⟨⟩)
  | @refused form lexeme rest refusal hrest happlies hrefuses =>
    have hlt := add_lt_length hrest (hrefuses.index_lt happlies.ne_nil)
    have hbyte {front back : Bytes} {b : Byte} (h : lexeme = front ++ b :: back) :
        source[stop + front.length]? = some b := by
      rw [← List.getElem?_drop, hrest, h]
      simp
    cases hrefuses with
    | illFormedText hfault | illFormedSequence _ hfault =>
      exact exact_report hlt (Or.inl (by simp [Fault.kind])) (by rintro ⟨⟩)
        fun _ => codePointLength?_of_refused hrest happlies hfault
    | dangling hsplit | unknown hsplit =>
      exact exact_report hlt (Or.inl (by simp [Fault.kind])) (fun _ => hbyte hsplit)
        (by rintro ⟨⟩)
    | outOfRange => exact exact_report hlt (Or.inr rfl) (by rintro ⟨⟩) (by rintro ⟨⟩)

end Cursor

namespace Session

theorem passes_true (source : Bytes) : Cursor.Passes source fun _ => True :=
  ⟨fun _ _ _ => trivial, fun _ _ => trivial⟩

/-- Error reports are exact: whatever the lexers of a source are asked, a diagnostic is right about
the source. The checks that could refuse a literal for other reasons never do: wherever a literal
applies it is refused at one of its own bytes, and a numeral without a point or a label is not
refused at all. -/
theorem run_exact (source : Bytes) :
    (∀ count steps answer d, some answer ∈ (start source count).run steps →
      answer.failure? = some d → d.Exact source) ∧
    ∀ offset form lexeme refusal, Applies (.literal form) lexeme (source.drop offset) →
      form.read lexeme = .error refusal →
        refusal.index < lexeme.length ∧ form ∉ [.natural, .number, .label] := by
  constructor
  · obtain ⟨ts, last, c', hrun, hanswers⟩ := exists_run_answers source
    intro count steps answer d hmem hd
    obtain rfl := (hanswers count steps answer hmem).1 d hd
    obtain ⟨-, stop, -, -, hreads⟩ :=
      hrun.forall_reads (passes_true source) (Nat.zero_le _) trivial
    exact hreads.reports.exact
  · intro offset form lexeme refusal happlies hread
    have hrefuses := Literal.refuses_of_read happlies.mem_language hread
    refine ⟨hrefuses.index_lt happlies.ne_nil, ?_⟩
    cases hrefuses with
    | illFormedText | dangling | unknown | outOfRange => simp
    | illFormedSequence hform => rcases hform with rfl | rfl <;> simp

/-- A path that ends within a character. -/
theorem run_exact_path :
    let source : Bytes := [0x2F, 0xE2, 0x82]
    let d : Diagnostic := ⟨.invalidUtf8, .ascii "invalid UTF-8 sequence", 1, ⟨1, 2⟩, [0xE2]⟩
    (some (.token (.error d)) ∈ (start source 1).run [(.next, 0)] ∧ d.Exact source) ∧
      Applies (.literal .path) source source ∧
      Literal.read .path source = .error ⟨.illFormedSequence, 1⟩ ∧ 1 < source.length ∧
      Literal.path ∉ [Literal.natural, .number, .label] := by
  intro source d
  have hlongest : longest? source = some ⟨.literal .path, 3⟩ := by decide +kernel
  have happlies : Applies (.literal .path) source source := (applies_of_longest? hlongest).1
  have hread : Literal.read .path source = .error ⟨.illFormedSequence, 1⟩ := by
    have hfault : Utf8.firstFault? source = some 1 := by
      rw [Utf8.firstFault?, Utf8.faultFrom_of_some (n := 1) (by decide)]
      exact Utf8.faultFrom_of_none (by decide) (by decide) 1
    have hverbatim : Literal.Verbatim.read source = .error ⟨.illFormedSequence, 1⟩ := by
      rw [Literal.Verbatim.read, hfault]
    rw [Literal.read, Literal.Verbatim.readPath, if_neg (by decide), hverbatim]
    rfl
  have hmem : some (.token (.error d)) ∈ (start source 1).run [(.next, 0)] :=
    mem_run_of_refused happlies hread rfl
  obtain ⟨hexact, hrefused⟩ := run_exact source
  exact ⟨⟨hmem, hexact 1 _ _ d hmem rfl⟩, happlies, hread, hrefused 0 .path source _ happlies hread⟩

end Session
end Munch
