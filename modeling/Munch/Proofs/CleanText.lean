import Mathlib.Data.List.DropRight
import Munch.Proofs.ErrorReport
import Munch.Proofs.Location

/-!
# Well-formed sources are read character by character

The source of this module is the encoding of some characters. Tokens then cover whole characters,
columns count characters, and a diagnostic is about one whole character. Only one text that is
reported is ever ill-formed: an unknown escape is quoted by its first byte, also if this byte is
only a part of a character.

## Main definitions

* `Position.ofChars`: the position behind some characters.
* `Token.CleanAt`, `Diagnostic.CleanAt`: what is reported, in terms of characters.
* `Answer.Clean`: an answer to a well-formed source.
-/
namespace Munch

open Utf8 (WellFormed IsTail encode)

/-! ## Positions in characters -/

namespace Utf8

/-- The first byte of a character tells whether it is below 0x80. -/
theorem ascii_head_iff {c : Char} {b : Byte} {s : Bytes} (h : String.utf8EncodeChar c = b :: s) :
    b < 0x80 ↔ c.toNat < 0x80 := by
  constructor
  · intro hascii
    have hmem : b ∈ String.utf8EncodeChar c := by simp [h]
    rw [(encodeChar_of_ascii_mem hmem hascii).2]
    exact hascii
  · intro hascii
    have hsmall : c.val.toNat ≤ 127 := Nat.le_of_lt_succ hascii
    rw [String.utf8EncodeChar, if_pos hsmall] at h
    rw [← (List.cons.inj h).1, UInt8.lt_iff_toNat_lt,
      UInt8.toNat_ofNat_of_lt' (Nat.lt_of_le_of_lt hsmall (by decide))]
    exact Nat.lt_succ_of_le hsmall

/-- A backslash is a character, and the byte behind it is the first byte of the next one. -/
theorem encode_backslash {c : Char} {cs : List Char} {code : Byte} {rest : Bytes}
    (h : encode (c :: cs) = Byte.backslash :: code :: rest) :
    c = '\\' ∧ ∃ e ∈ cs.head?, code < 0x80 ↔ e.toNat < 0x80 := by
  obtain rfl : c = '\\' := Char.toNat_inj.1 (toNat_of_encodeChar_append (by decide) h)
  refine ⟨rfl, ?_⟩
  have hcs : encode cs = code :: rest := (List.cons.inj h).2
  cases cs with
  | nil => cases hcs
  | cons e cs =>
    obtain ⟨lead, s, hsplit⟩ := List.exists_cons_of_ne_nil (isCodePoint_encode e).ne_nil
    rw [encode_cons, hsplit] at hcs
    obtain ⟨rfl, -⟩ := List.cons.inj hcs
    exact ⟨e, rfl, ascii_head_iff hsplit⟩

theorem isCodePoint_fragment {s : Bytes} (h : WellFormed s) (hne : s ≠ []) :
    IsCodePoint (fragment s) := by
  cases h with
  | nil => exact absurd rfl hne
  | cons hpoint =>
    rw [fragment, codePointLength?_append hpoint, Option.getD_some, List.take_left]
    exact hpoint

end Utf8

namespace Position

/-- The position behind some characters: a line for every line feed, and a column for every
character behind the last of them. -/
def ofChars (before : List Char) : Position :=
  ⟨1 + before.count '\n', 1 + (before.rtakeWhile (· ≠ '\n')).length⟩

theorem advance_tails {s : Bytes} (h : ∀ b ∈ s, IsTail b) (p : Position) : p.advance s = p := by
  induction s with
  | nil => rfl
  | cons b s ih =>
    obtain ⟨hb, hs⟩ := List.forall_mem_cons.1 h
    have hnew : b ≠ Byte.newline := by
      rintro rfl
      exact Utf8.not_isTail_of_ascii (by decide) hb
    have hstep : p.step b = p := by
      rw [step, if_neg hnew, if_pos ((Byte.isContinuation_iff b).2 hb)]
    rw [advance, List.foldl_cons, hstep]
    exact ih hs

/-- A character is a column or ends the line. -/
theorem advance_char (p : Position) (c : Char) : p.advance (String.utf8EncodeChar c) =
    if c = '\n' then ⟨p.line + 1, 1⟩ else ⟨p.line, p.col + 1⟩ := by
  split
  · subst c
    rfl
  · rename_i hc
    have hpoint := Utf8.isCodePoint_encode c
    obtain ⟨lead, s, hsplit⟩ := List.exists_cons_of_ne_nil hpoint.ne_nil
    rw [hsplit] at hpoint
    have hnew : lead ≠ Byte.newline := by
      rintro rfl
      have hmem : Byte.newline ∈ String.utf8EncodeChar c := by simp [hsplit]
      exact hc (Char.toNat_inj.1 (Utf8.encodeChar_of_ascii_mem hmem (by decide)).2)
    have hstep : p.step lead = ⟨p.line, p.col + 1⟩ := by
      rw [step, if_neg hnew, if_neg (mt (Byte.isContinuation_iff lead).1 hpoint.tails.1)]
    rw [hsplit, advance, List.foldl_cons, hstep]
    exact advance_tails hpoint.tails.2 _

theorem advance_encode (before : List Char) : start.advance (encode before) = ofChars before := by
  induction before using List.reverseRecOn with
  | nil => rfl
  | append_singleton before c ih =>
    have hencode : encode (before ++ [c]) = encode before ++ String.utf8EncodeChar c := by simp
    rw [hencode, advance_append, ih, advance_char]
    by_cases hc : c = '\n'
    · simp [ofChars, hc, Nat.add_assoc]
    · simp [ofChars, hc, Nat.add_assoc]

end Position

/-! ## Messages -/

namespace Fault

theorem ascii_hex (b : Byte) : (Bytes.hex b).all (fun b => b < 0x80) = true := by
  refine Byte.of_forall_fin (p := fun b => (Bytes.hex b).all (fun b => b < 0x80) = true) ?_
    b.toNat_lt
  decide +kernel

theorem wellFormed_describe {fragment : Bytes} (h : Utf8.IsCodePoint fragment) :
    WellFormed (describe fragment) := by
  have hshown : WellFormed
      (Bytes.ascii "unexpected character '" ++ fragment ++ Bytes.ascii "'") := by
    have hfragment : WellFormed fragment := by simpa using WellFormed.cons h .nil
    exact ((Utf8.wellFormed_of_ascii (by decide)).append hfragment).append
      (Utf8.wellFormed_of_ascii (by decide))
  unfold describe
  split
  · exact hshown
  · split
    · exact hshown
    · exact (Utf8.wellFormed_of_ascii (by decide)).append (Utf8.wellFormed_of_ascii (ascii_hex _))
  · exact hshown

theorem wellFormed_unknownEscape_iff {code : Byte} :
    WellFormed (message (.unknownEscape code)) ↔ code < 0x80 := by
  rw [message]
  constructor
  · intro h
    have hfront : WellFormed (Bytes.ascii "unknown escape sequence '\\") :=
      Utf8.wellFormed_of_ascii (by decide)
    exact (hfront.of_append_left (h.of_append_ascii (by decide))).ascii_of_singleton
  · intro hcode
    have hshown := Utf8.wellFormed_ascii_cons hcode .nil
    exact ((Utf8.wellFormed_of_ascii (by decide)).append hshown).append
      (Utf8.wellFormed_of_ascii (by decide))

end Fault

/-! ## What is reported -/

/-- The token covers characters, and others stand in front of it. -/
structure Token.CleanAt (before lexeme : List Char) (t : Token) : Prop where
  span : t.span = ⟨(encode before).length, (encode (before ++ lexeme)).length⟩
  position : t.position = .ofChars before

/-- The diagnostic is about a character between others. Its message is well-formed unless it quotes
a part of the character behind a backslash. -/
structure Diagnostic.CleanAt (before : List Char) (c : Char) (after : List Char)
    (d : Diagnostic) : Prop where
  offset : d.offset = (encode before).length
  position : d.position = .ofChars before
  fragment : d.fragment = String.utf8EncodeChar c
  kind_ne : d.kind ≠ .invalidUtf8
  backslash (h : d.kind = .invalidEscape) : c = '\\'
  message : Utf8.IsText d.message ↔
    ¬ (d.kind = .invalidEscape ∧ ∃ e ∈ after.head?, 0x80 ≤ e.toNat)

/-- All that is found in a source of these characters and what is reported about it. -/
structure Answer.Clean (cs : List Char) (answer : Answer) : Prop where
  found (t : Token) (h : t ∈ answer.found) :
    ∃ before lexeme after, cs = before ++ lexeme ++ after ∧ t.CleanAt before lexeme
  failure (d : Diagnostic) (h : answer.failure? = some d) :
    ∃ before c after, cs = before ++ c :: after ∧ d.CleanAt before c after

namespace Cursor

variable {cs : List Char} {offset stop : Nat}

/-- Gaps and lexemes leave a source well-formed that is so in front of them. -/
theorem passes_wellFormed (source : Bytes) : Passes source fun k => WellFormed (source.drop k) where
  gap {first last} hle h hwell := by
    refine h.wellFormed ?_
    rw [Bytes.slice]
    have hdrop : source.drop last = (source.drop first).drop (last - first) := by
      rw [List.drop_drop, Nat.add_sub_cancel' hle]
    rwa [hdrop, List.take_append_drop]
  lexeme {first rule lexeme} h hwell := by
    obtain ⟨rest, hrest⟩ := h.head
    rw [← hrest] at h hwell
    rw [← List.drop_drop, ← hrest, List.drop_left]
    exact (h.wellFormed hwell).2

/-- Where the rest of the source is well-formed, characters end. -/
theorem exists_chars (hoffset : offset ≤ (encode cs).length)
    (hwell : WellFormed ((encode cs).drop offset)) : ∃ before tail, cs = before ++ tail ∧
      encode tail = (encode cs).drop offset ∧ (encode before).length = offset ∧
        (place (encode cs) offset).position = .ofChars before := by
  obtain ⟨before, tail, hcs, hbefore, htail⟩ :=
    Utf8.exists_cut (List.take_append_drop offset (encode cs)).symm hwell
  refine ⟨before, tail, hcs, htail, ?_, ?_⟩
  · rw [hbefore, List.length_take_of_le hoffset]
  · rw [position_place, ← hbefore, ← Position.advance_start, Position.advance_encode]

/-- A token is read from whole characters. -/
theorem Reads.clean {t : Token} {c' : Cursor} (h : (place (encode cs) stop).Reads (.ok t, c'))
    (hstop : stop ≤ (encode cs).length) (hwell : WellFormed ((encode cs).drop stop)) :
    ∃ before lexeme after, cs = before ++ lexeme ++ after ∧ t.CleanAt before lexeme := by
  obtain ⟨before, tail, rfl, htail, rfl, hposition⟩ := exists_chars hstop hwell
  by_cases heof : t.kind = .eof
  · obtain ⟨-, rfl, -⟩ := h.atEnd_of_eof heof
    exact ⟨before, [], tail, by simp, by simp [endToken], hposition⟩
  · obtain ⟨rule, lexeme, happlies, hspan, hpos, -⟩ := h.exists_lexeme heof
    obtain ⟨rest, hrest⟩ := happlies.head
    rw [← htail] at hrest happlies hwell
    rw [← hrest] at happlies hwell
    obtain ⟨chars, after, rfl, rfl, -⟩ := Utf8.exists_cut hrest.symm (happlies.wellFormed hwell).2
    refine ⟨before, chars, after, by simp, ?_, hpos.trans hposition⟩
    rw [hspan, Utf8.encode_append, List.length_append]

/-- A report at the beginning of a character is clean if its message is. -/
theorem clean_report {fault : Fault} (hoffset : offset < (encode cs).length)
    (hwell : WellFormed ((encode cs).drop offset)) (hkind : fault.kind ≠ .invalidUtf8)
    (hescape : fault.kind = .invalidEscape → ∃ code rest,
      (encode cs).drop offset = Byte.backslash :: code :: rest ∧
        (WellFormed fault.message ↔ code < 0x80))
    (hmessage : fault.kind ≠ .invalidEscape → WellFormed fault.message) :
    ∃ before c after, cs = before ++ c :: after ∧
      ((place (encode cs) offset).report fault).CleanAt before c after := by
  obtain ⟨before, tail, rfl, htail, hlength, hposition⟩ := exists_chars hoffset.le hwell
  cases tail with
  | nil =>
    rw [List.append_nil] at hoffset
    omega
  | cons c after =>
    have hhead : String.utf8EncodeChar c <+: (encode (before ++ c :: after)).drop offset :=
      ⟨_, htail⟩
    refine ⟨before, c, after, rfl, ?_, hposition, Utf8.fragment_of_char hhead, hkind,
      fun h => ?_, ?_⟩
    · exact (offset_place _ _).trans hlength.symm
    · obtain ⟨code, rest, hrest, -⟩ := hescape h
      exact (Utf8.encode_backslash (htail.trans hrest)).1
    · rw [Utf8.isText_iff_wellFormed]
      change WellFormed fault.message ↔ ¬ (fault.kind = _ ∧ _)
      by_cases h : fault.kind = .invalidEscape
      · obtain ⟨code, rest, hrest, hiff⟩ := hescape h
        obtain ⟨-, e, he, hcode⟩ := Utf8.encode_backslash (htail.trans hrest)
        rw [hiff, hcode, ← Nat.not_le]
        obtain ⟨after, rfl⟩ := List.head?_eq_some_iff.1 he
        simp [h]
      · simp [h, hmessage h]

/-- In a well-formed source every report is clean: no literal is refused for its UTF-8, and the
backslash of a refused escape is a whole character. -/
theorem Reports.clean {d : Diagnostic} (h : Reports (encode cs) stop d)
    (hwell : WellFormed ((encode cs).drop stop)) :
    ∃ before c after, cs = before ++ c :: after ∧ d.CleanAt before c after := by
  cases h with
  | unmatched hne =>
    exact clean_report (by simpa using hne) hwell (by rintro ⟨⟩) (by rintro ⟨⟩)
      fun _ => Fault.wellFormed_describe (Utf8.isCodePoint_fragment hwell hne)
  | @refused form lexeme rest refusal hrest happlies hrefuses =>
    have hlt := add_lt_length hrest (hrefuses.index_lt happlies.ne_nil)
    rw [hrest] at hwell
    have hwell_lexeme := (happlies.wellFormed hwell).1
    -- The rest of the source from a backslash in the lexeme on.
    have hdrop {front back : Bytes} (h : lexeme = front ++ Byte.backslash :: back) :
        (encode cs).drop (stop + front.length) = Byte.backslash :: (back ++ rest) ∧
          WellFormed (Byte.backslash :: (back ++ rest)) := by
      have hsplit : lexeme ++ rest = front ++ Byte.backslash :: (back ++ rest) := by simp [h]
      constructor
      · rw [← List.drop_drop, hrest, hsplit, List.drop_left]
      · rw [hsplit] at hwell
        refine (Utf8.Seam.wellFormed (Or.inr fun b hb => ?_) hwell).2
        obtain rfl := Option.some.inj hb
        decide
    cases hrefuses with
    | illFormedText hfault | illFormedSequence _ hfault =>
      rw [Utf8.firstFault?_eq_none_iff.2 hwell_lexeme] at hfault
      cases hfault
    | dangling hsplit =>
      obtain ⟨hback, hwell⟩ := hdrop hsplit
      rw [← hback] at hwell
      have hmessage : WellFormed (Fault.message .danglingEscape) :=
        Utf8.wellFormed_of_ascii (by decide)
      exact clean_report hlt hwell (by rintro ⟨⟩)
        (fun _ => ⟨_, _, hback, iff_of_true hmessage (by decide)⟩) fun h => absurd rfl h
    | unknown hsplit =>
      obtain ⟨hback, hwell⟩ := hdrop hsplit
      rw [← hback] at hwell
      exact clean_report hlt hwell (by rintro ⟨⟩)
        (fun _ => ⟨_, _, hback, Fault.wellFormed_unknownEscape_iff⟩) (absurd rfl)
    | outOfRange =>
      rw [← hrest] at hwell
      exact clean_report hlt hwell (by rintro ⟨⟩) (by rintro ⟨⟩)
        fun _ => Utf8.wellFormed_of_ascii (by decide)

end Cursor

namespace Session

/-- Well-formed sources are read character by character, whatever their lexers are asked. -/
theorem run_clean (cs : List Char) (count : Nat) (steps : List (Query × Nat)) :
    ∀ answer, some answer ∈ (start (encode cs) count).run steps → answer.Clean cs := by
  obtain ⟨ts, last, c', hrun, hanswers⟩ := exists_run_answers (encode cs)
  obtain ⟨htokens, stop, hstop, hwell, hreads⟩ := hrun.forall_reads
    (Cursor.passes_wellFormed (encode cs)) (Nat.zero_le _) (Utf8.wellFormed_encode cs)
  intro answer hmem
  obtain ⟨hfailure, hfound⟩ := hanswers count steps answer hmem
  refine ⟨fun t ht => ?_, fun d hd => ?_⟩
  · rcases hfound t ht with ht | rfl
    · obtain ⟨stop, hstop, hwell, c, hreads⟩ := htokens t ht
      exact hreads.clean hstop hwell
    · exact hreads.clean hstop hwell
  · obtain rfl := hfailure d hd
    exact hreads.reports.clean hwell

/-- A backslash before a character of two bytes, of which the message quotes one. -/
theorem run_clean_escape :
    let cs := ['"', '\\', 'é', '"']
    let d : Diagnostic := ⟨.invalidEscape, (Fault.unknownEscape 0xC3).message, 1, ⟨1, 2⟩, [0x5C]⟩
    some (.token (.error d)) ∈ (start (encode cs) 1).run [(.next, 0)] ∧
      Answer.Clean cs (.token (.error d)) := by
  intro cs d
  have hlongest : longest? (encode cs) = some ⟨.literal .text, 5⟩ := by decide +kernel
  have happlies : Applies (.literal .text) (encode cs) (encode cs) := (applies_of_longest? hlongest).1
  have hread : Literal.read .text (encode cs) = .error ⟨.unknownEscape 0xC3, 1⟩ := by
    have hfault := Utf8.firstFault?_eq_none_iff.2 (Utf8.wellFormed_encode cs)
    rw [Literal.read, Literal.Text.unquote, hfault]
    rfl
  have hmem : some (.token (.error d)) ∈ (start (encode cs) 1).run [(.next, 0)] :=
    mem_run_of_refused happlies hread rfl
  exact ⟨hmem, run_clean cs 1 _ _ hmem⟩

end Session
end Munch
