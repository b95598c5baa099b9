import Munch.Proofs.Boundary
import Munch.Proofs.ClosingQuote
import Munch.Proofs.MaximalMunch

/-!
# Unmatched bytes

Whether a text begins with a lexeme is said by its first bytes, except behind an opening quote, where
the whole text is searched for another one. A rule has lexemes only in texts that begin with one of
its heads, so a byte is unmatched if it is the head of no rule, or of one that fails. Every other byte
begins a lexeme: itself, a pair of operator bytes, a slash with the byte behind it, an encoded
character, or a text up to the next quote.

## Main definitions

* `Stray`: the first byte of a text begins no lexeme, by classes of bytes.
-/
namespace Munch

open Grammar (white)

/-! ## Stray bytes -/

/-- The characters outside ASCII that are lexemes: arrow, lambda and the quantifier. -/
def signs : List Char := ['\u2192', '\u03BB', '\u2200']

/-- The first byte of the text begins no lexeme. -/
inductive Stray : Bytes → Prop
  | ampersand {s : Bytes} (h : s.head? ≠ some 0x26) : Stray (0x26 :: s)
  | bar {s : Bytes} (h : s.head? ≠ some 0x7C) : Stray (0x7C :: s)
  | slash {s : Bytes} (h : ∀ b, s.head? = some b → b ∈ white) : Stray (Byte.slash :: s)
  | quote {s : Bytes} (h : Byte.quote ∉ s) : Stray (Byte.quote :: s)
  | symbol {b : Byte} {s : Bytes} (h : b ∈ Bytes.ascii "!#$%';<>?^`~") : Stray (b :: s)
  | control {b : Byte} {s : Bytes} (h : b < 0x20 ∨ b = 0x7F) (hwhite : b ∉ white) : Stray (b :: s)
  | nonAscii {b : Byte} {s : Bytes} (h : 0x80 ≤ b)
      (hsign : ∀ c ∈ signs, ¬ String.utf8EncodeChar c <+: b :: s) : Stray (b :: s)

variable {b : Byte} {s : Bytes}

theorem stray_quote_iff : Stray (Byte.quote :: s) ↔ Byte.quote ∉ s := by
  refine ⟨fun h => ?_, .quote⟩
  generalize hs : Byte.quote :: s = t at h
  cases h with
  | quote h => exact (List.cons.inj hs).2 ▸ h
  | ampersand | bar | slash => exact absurd (List.cons.inj hs).1 (by decide)
  | symbol h => exact absurd ((List.cons.inj hs).1 ▸ h) (by decide)
  | control h => exact absurd ((List.cons.inj hs).1 ▸ h) (by decide)
  | nonAscii h => exact absurd ((List.cons.inj hs).1 ▸ h) (by decide)

/-! ## Which rules begin with a byte -/

instance Literal.decidableMemHeads : (form : Literal) → DecidablePred (· ∈ form.heads)
  | text => fun b => decidable_of_iff (b = 0x22) Iff.rfl
  | natural => fun b => decidable_of_iff (b = 0x2B) Iff.rfl
  | number => fun _ => decidable_of_iff _ Grammar.isDigit_iff
  | double => fun _ => decidable_of_iff _ Grammar.isDigit_iff
  | label => fun b => decidable_of_iff ((b.isLetter || b == 0x5F) = true ∨ b = 0x28)
      (or_congr Grammar.isIdentifierStart_iff Iff.rfl)
  | path => fun b => decidable_of_iff (b = 0x2E ∨ b = 0x2F) Iff.rfl
  | address => fun b => decidable_of_iff (b = 0x68) Iff.rfl

instance Rule.decidableMemHeads : (rule : Rule) → DecidablePred (· ∈ rule.heads)
  | layout .whitespace => fun _ => decidable_of_iff _ Grammar.isWhite_iff
  | layout .comment => fun b => decidable_of_iff (b = 0x2D) Iff.rfl
  | fixed lexeme _ => fun b => decidable_of_iff (lexeme.head? = some b) Iff.rfl
  | literal form => Literal.decidableMemHeads form

theorem Rule.eq_andAnd_of_head : ∀ rule ∈ rules, 0x26 ∈ rule.heads →
    rule = .fixed (.ascii "&&") .andAnd := by
  decide +kernel

theorem Rule.eq_orOr_of_head : ∀ rule ∈ rules, 0x7C ∈ rule.heads →
    rule = .fixed (.ascii "||") .orOr := by
  decide +kernel

theorem Rule.eq_path_of_head : ∀ rule ∈ rules, Byte.slash ∈ rule.heads → rule = .literal .path := by
  decide +kernel

theorem Rule.eq_text_of_quote : ∀ rule ∈ rules, Byte.quote ∈ rule.heads → rule = .literal .text := by
  decide +kernel

theorem Rule.notMem_heads_of_symbol :
    ∀ b ∈ Bytes.ascii "!#$%';<>?^`~", ∀ rule ∈ rules, b ∉ rule.heads := by
  decide +kernel

theorem Rule.notMem_heads_of_control (h : b < 0x20 ∨ b = 0x7F) (hwhite : b ∉ white) :
    ∀ rule ∈ rules, b ∉ rule.heads := by
  have hascii : b.toNat < 128 := by
    rcases h with h | rfl
    · exact (UInt8.lt_iff_toNat_lt.1 h).trans (by decide)
    · decide
  rw [← Grammar.isWhite_iff] at hwhite
  revert h hwhite
  refine Byte.of_forall_fin (p := fun b => b < 0x20 ∨ b = 0x7F → ¬ b.isWhite = true →
    ∀ rule ∈ rules, b ∉ rule.heads) ?_ hascii
  decide +kernel

/-- A fixed lexeme begins in ASCII, unless it is a sign. -/
def Rule.isAsciiOrSign : Rule → Bool
  | fixed lexeme _ => lexeme.head?.all (· < 0x80) || signs.any fun c => String.utf8EncodeChar c == lexeme
  | _ => true

theorem Rule.isAsciiOrSign_of_mem : ∀ rule ∈ rules, rule.isAsciiOrSign = true := by decide

/-- Outside ASCII lexemes begin with a sign. -/
theorem Rule.eq_sign_of_head (h : 0x80 ≤ b) {rule : Rule} (hrule : rule ∈ rules)
    (hhead : b ∈ rule.heads) : ∃ c ∈ signs, ∃ kind, rule = .fixed (String.utf8EncodeChar c) kind := by
  cases rule with
  | layout form => cases form <;> grind [heads, white]
  | fixed lexeme kind =>
    have hlexeme := isAsciiOrSign_of_mem _ hrule
    replace hhead : lexeme.head? = some b := hhead
    simp only [isAsciiOrSign, hhead, Option.all_some, Bool.or_eq_true, decide_eq_true_eq,
      List.any_eq_true, beq_iff_eq] at hlexeme
    obtain ⟨c, hc, rfl⟩ := hlexeme.resolve_left (UInt8.not_lt.2 h)
    exact ⟨c, hc, kind, rfl⟩
  | literal form =>
    cases form <;> simp [heads, Literal.heads, Grammar.digit, Grammar.identifierStart,
      Grammar.letter] at hhead <;> grind

/-! ## Stray bytes are unmatched -/

theorem Rule.extent_fixed_of_not_prefix {lexeme : Bytes} {kind : Kind} (h : ¬ lexeme <+: s) :
    (Rule.fixed lexeme kind).extent s = 0 :=
  if_neg (mt List.isPrefixOf_iff_prefix.1 h)

/-- A text is unmatched if all rules fail that may begin with its first byte. -/
theorem unmatched_of_heads (h : ∀ rule ∈ rules, b ∈ rule.heads → rule.extent (b :: s) = 0) :
    Unmatched (b :: s) := by
  intro rule hrule w hw hs
  cases w with
  | nil => rfl
  | cons c w =>
    obtain ⟨rfl, -⟩ := List.cons_prefix_cons.1 hs
    have hlongest := rule.isLongest_extent (c :: s)
    rw [h rule hrule (Rule.head_mem hw)] at hlongest
    exact Grammar.isLongest_zero_iff.1 hlongest _ hw hs

theorem unmatched_of_forall_notMem (h : ∀ rule ∈ rules, b ∉ rule.heads) : Unmatched (b :: s) :=
  unmatched_of_heads fun rule hrule hhead => absurd hhead (h rule hrule)

/-- An operator of two equal bytes needs both of them. -/
theorem not_prefix_of_pair (h : s.head? ≠ some b) : ¬ [b, b] <+: b :: s := by
  rintro ⟨t, heq⟩
  obtain rfl := (List.cons.inj heq).2
  exact h rfl

/-- No path begins with a slash in front of white space or at the end. -/
theorem Literal.Verbatim.pathExtent_of_slash (h : ∀ b, s.head? = some b → b ∈ white) :
    pathExtent (Byte.slash :: s) = 0 := by
  have hrun : s.takeWhile (fun b => !b.isWhite) = [] := by
    cases s with
    | nil => rfl
    | cons c s => simp [Grammar.isWhite_iff.2 (h c rfl)]
  have hextent : pathExtent (Byte.slash :: s) =
      if (s.takeWhile fun b => !b.isWhite).length = 0 then 0
      else 1 + (s.takeWhile fun b => !b.isWhite).length := rfl
  rw [hextent, hrun, List.length_nil, if_pos rfl]

theorem Literal.Text.quotes_of_notMem (h : Byte.quote ∉ s) : quotes (b :: s) = ∅ := by
  refine Set.eq_empty_iff_forall_notMem.2 fun j hj => ?_
  obtain ⟨i, rfl⟩ := Nat.exists_eq_add_of_le' hj.1
  exact h (List.mem_of_getElem? hj.2)

theorem Stray.unmatched (h : Stray s) : Unmatched s := by
  cases h with
  | ampersand h =>
    refine unmatched_of_heads fun rule hrule hhead => ?_
    obtain rfl := Rule.eq_andAnd_of_head rule hrule hhead
    exact Rule.extent_fixed_of_not_prefix (not_prefix_of_pair h)
  | bar h =>
    refine unmatched_of_heads fun rule hrule hhead => ?_
    obtain rfl := Rule.eq_orOr_of_head rule hrule hhead
    exact Rule.extent_fixed_of_not_prefix (not_prefix_of_pair h)
  | slash h =>
    refine unmatched_of_heads fun rule hrule hhead => ?_
    obtain rfl := Rule.eq_path_of_head rule hrule hhead
    exact Literal.Verbatim.pathExtent_of_slash h
  | quote h =>
    refine unmatched_of_heads fun rule hrule hhead => ?_
    obtain rfl := Rule.eq_text_of_quote rule hrule hhead
    exact Literal.Text.extent_eq_zero_of_quotes (s := Byte.quote :: _)
      (Literal.Text.quotes_of_notMem h)
  | symbol h => exact unmatched_of_forall_notMem (Rule.notMem_heads_of_symbol _ h)
  | control h hwhite => exact unmatched_of_forall_notMem (Rule.notMem_heads_of_control h hwhite)
  | nonAscii h hsign =>
    refine unmatched_of_heads fun rule hrule hhead => ?_
    obtain ⟨c, hc, kind, rfl⟩ := Rule.eq_sign_of_head h hrule hhead
    exact Rule.extent_fixed_of_not_prefix (hsign c hc)

/-! ## Unmatched bytes are stray -/

/-- No rule has a lexeme in a beginning of an unmatched text. -/
theorem Unmatched.of_prefix {t : Bytes} (h : Unmatched t) (hs : s <+: t) : Unmatched s :=
  fun rule hrule w hw hws => h rule hrule w hw (hws.trans hs)

theorem Unmatched.notMem (h : Unmatched s) (rule : Rule) (hrule : rule ∈ rules) {w : Bytes}
    (hne : w ≠ []) (hw : w <+: s) : w ∉ rule.language :=
  fun hmem => hne (h rule hrule w hmem hw)

/-- A quote is unmatched only if no other one follows. -/
theorem Unmatched.quote_notMem (h : Unmatched (Byte.quote :: s)) : Byte.quote ∉ s := by
  intro hquote
  obtain ⟨front, back, rfl, hfront⟩ := List.eq_append_cons_of_mem hquote
  have htext : Byte.quote :: (front ++ [Byte.quote]) ∈ Grammar.text :=
    Grammar.mem_text_iff.2 ⟨front, Grammar.escaped_of_quote_notMem hfront, rfl⟩
  exact h.notMem (.literal .text) (by decide) (List.cons_ne_nil _ _) ⟨back, by simp⟩ htext

/-- A slash in front of another byte than white space begins a path. -/
theorem Unmatched.white_of_slash (h : Unmatched (Byte.slash :: s)) {c : Byte}
    (hc : s.head? = some c) : c ∈ white := by
  obtain ⟨t, rfl⟩ := List.head?_eq_some_iff.1 hc
  by_contra hwhite
  have hpath : [Byte.slash, c] ∈ Grammar.path :=
    ⟨[Byte.slash], Or.inl (Or.inl rfl), [c], Grammar.mem_many_byte.2 ⟨by simp, by simpa⟩, rfl⟩
  exact h.notMem (.literal .path) (by decide) (List.cons_ne_nil _ _) ⟨t, rfl⟩ hpath

/-- The byte after a doubled operator byte decides: the pair is an operator. -/
theorem Unmatched.head?_ne (h : Unmatched (b :: s)) (hpair : longest? [b, b] ≠ none) :
    s.head? ≠ some b := by
  intro hhead
  obtain ⟨t, rfl⟩ := List.head?_eq_some_iff.1 hhead
  exact hpair (longest?_eq_none_iff.2 (h.of_prefix ⟨t, rfl⟩))

theorem exists_fixed_of_mem_signs {c : Char} (hc : c ∈ signs) :
    ∃ kind, Rule.fixed (String.utf8EncodeChar c) kind ∈ rules := by
  simp only [signs, List.mem_cons, List.not_mem_nil, or_false] at hc
  rcases hc with rfl | rfl | rfl
  · exact ⟨.arrow, by decide⟩
  · exact ⟨.lambda, by decide⟩
  · exact ⟨.forallKeyword, by decide⟩

theorem Unmatched.not_prefix_of_sign (h : Unmatched s) {c : Char} (hc : c ∈ signs) :
    ¬ String.utf8EncodeChar c <+: s := by
  intro hs
  obtain ⟨kind, hrule⟩ := exists_fixed_of_mem_signs hc
  exact h.notMem _ hrule (String.utf8EncodeChar_ne_nil) hs rfl

/-- White space, digits and letters are lexemes of their own. -/
theorem Unmatched.not_class (h : Unmatched [b]) :
    ¬ b.isWhite = true ∧ ¬ b.isDigit = true ∧ ¬ b.isLetter = true := by
  have hone (rule : Rule) (hrule : rule ∈ rules) : [b] ∉ rule.language :=
    h.notMem rule hrule (List.cons_ne_nil _ _) (List.prefix_refl _)
  refine ⟨fun hwhite => ?_, fun hdigit => ?_, fun hletter => ?_⟩
  · refine hone (.layout .whitespace) (by decide) (Grammar.mem_many_byte.2 ⟨by simp, ?_⟩)
    simpa using Grammar.isWhite_iff.1 hwhite
  · refine hone (.literal .number) (by decide) (Grammar.mem_many_byte.2 ⟨by simp, ?_⟩)
    simpa using Grammar.isDigit_iff.1 hdigit
  · refine hone (.literal .label) (by decide) (Or.inl (Grammar.cons_mem_byte_mul ?_ ?_))
    · exact Grammar.isIdentifierStart_iff.1 (by simp [hletter])
    · exact Language.nil_mem_kstar _

/-- Every other byte is a lexeme or in one of the classes of stray bytes. -/
theorem longest?_or_class (h : b < 0x80) : b.isWhite = true ∨ b.isDigit = true ∨ b.isLetter = true ∨
    (b = 0x26 ∨ b = 0x7C ∨ b = Byte.slash ∨ b = Byte.quote) ∨
      b ∈ Bytes.ascii "!#$%';<>?^`~" ∨ (b < 0x20 ∨ b = 0x7F) ∨ longest? [b] ≠ none := by
  refine Byte.of_forall_fin (p := fun b => b.isWhite = true ∨ b.isDigit = true ∨ b.isLetter = true ∨
    (b = 0x26 ∨ b = 0x7C ∨ b = Byte.slash ∨ b = Byte.quote) ∨
      b ∈ Bytes.ascii "!#$%';<>?^`~" ∨ (b < 0x20 ∨ b = 0x7F) ∨ longest? [b] ≠ none) ?_
    (UInt8.lt_iff_toNat_lt.1 h)
  decide +kernel

theorem Unmatched.stray (h : Unmatched (b :: s)) : Stray (b :: s) := by
  have halone : Unmatched [b] := h.of_prefix ⟨s, rfl⟩
  obtain ⟨hwhite, hdigit, hletter⟩ := halone.not_class
  by_cases hb : 0x80 ≤ b
  · exact .nonAscii hb fun c hc => h.not_prefix_of_sign hc
  · rcases longest?_or_class (UInt8.not_le.1 hb) with hclass | hclass | hclass |
      (rfl | rfl | rfl | rfl) | hsymbol | hcontrol | hlongest
    · exact absurd hclass hwhite
    · exact absurd hclass hdigit
    · exact absurd hclass hletter
    · exact .ampersand (h.head?_ne (by decide +kernel))
    · exact .bar (h.head?_ne (by decide +kernel))
    · exact .slash fun c hc => h.white_of_slash hc
    · exact .quote h.quote_notMem
    · exact .symbol hsymbol
    · exact .control hcontrol (mt Grammar.isWhite_iff.2 hwhite)
    · exact absurd (longest?_eq_none_iff.2 halone) hlongest

theorem unmatched_iff_stray (hs : s ≠ []) : Unmatched s ↔ Stray s := by
  obtain ⟨b, s, rfl⟩ := List.exists_cons_of_ne_nil hs
  exact ⟨Unmatched.stray, Stray.unmatched⟩

/-! ## What a lexer reports -/

/-- At an offset inside a source a lexer reports an unmatched character on the spot exactly if the
byte there is stray. So it reports an opening quote exactly if no later quote exists. -/
theorem Lexer.next_unmatched_iff_stray (source : Bytes) (offset : Nat) (h : offset < source.length)
    (position : Position) :
    let rest := source.drop offset
    let l : Lexer := ⟨source, ⟨rest, offset, position⟩, none⟩
    let Reported := ∃ d, l.next.1 = .error d ∧ d.kind = .unmatchedCharacter ∧ d.offset = offset
    (Reported ↔ Stray rest) ∧
      ∀ s, rest = Byte.quote :: s → (Reported ↔ Byte.quote ∉ s) := by
  intro rest l Reported
  have hrest : rest ≠ [] := List.length_pos_iff.1 (by simp only [rest, List.length_drop]; omega)
  have hreported : Reported ↔ Stray rest := by
    simp only [Reported, next_of_failure_none (l := l) rfl, fst_after]
    exact (Cursor.scan_reports_unmatched_iff (c := l.cursor) hrest).trans (unmatched_iff_stray hrest)
  refine ⟨hreported, fun s hs => ?_⟩
  rw [hreported, hs, stray_quote_iff]

/-- The quote opens no text, since no other one follows. -/
theorem Lexer.next_unmatched_iff_stray_quote :
    let source := Bytes.ascii "a \"b"
    let l : Lexer := ⟨source, ⟨source.drop 2, 2, ⟨1, 3⟩⟩, none⟩
    2 < source.length ∧ source.drop 2 = Byte.quote :: Bytes.ascii "b" ∧ Stray (source.drop 2) ∧
      ∃ d, l.next.1 = .error d ∧ d.kind = .unmatchedCharacter ∧ d.offset = 2 := by
  have hreports := next_unmatched_iff_stray (Bytes.ascii "a \"b") 2 (by decide) ⟨1, 3⟩
  have hreported := (hreports.2 (Bytes.ascii "b") rfl).2 (by decide)
  exact ⟨by decide, rfl, hreports.1.1 hreported, hreported⟩

end Munch
