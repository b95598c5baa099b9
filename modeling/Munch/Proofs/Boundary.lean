import Munch.Proofs.Extent
import Munch.Proofs.Quoting
import Munch.Proofs.RuleChoice

/-!
# Where a lexeme ends

A lexeme that a rule takes when it stands alone is also taken in front of white space. Only white
space, comments and texts have lexemes with a white byte, and what begins like the lexeme of a
token is neither white space nor a comment. A text is taken in front of white space unless its
closing quote stands after a backslash and a later quote would close it instead.

## Main definitions

* `Grammar.Over`: all lexemes of a language are made of the bytes of a set.
* `Literal.heads`, `Rule.heads`: the bytes with which the lexemes of a rule begin.
* `Rule.IsLayout`: the rule yields no token.
-/
namespace Munch

namespace Grammar

open scoped Computability

/-! ## Bytes of a language -/

/-- Every text of the language is made of bytes of the set. -/
def Over (p : Set Byte) (l : Language Byte) : Prop := ∀ w ∈ l, ∀ b ∈ w, b ∈ p

variable {p q : Set Byte} {l l' : Language Byte}

theorem over_fixed {s : String} (h : ∀ b ∈ Bytes.ascii s, b ∈ p) : Over p (fixed s) := by
  rintro _ rfl
  exact h

theorem over_byte (h : ∀ b ∈ q, b ∈ p) : Over p (byte q) := by
  rintro _ ⟨b, hb, rfl⟩ c hc
  exact List.mem_singleton.1 hc ▸ h b hb

theorem over_many_byte (h : ∀ b ∈ q, b ∈ p) : Over p (many (byte q)) :=
  fun _ hw b hb => h b ((mem_many_byte.1 hw).2 b hb)

theorem over_star_byte (h : ∀ b ∈ q, b ∈ p) : Over p (byte q)∗ :=
  fun _ hw b hb => h b (mem_star_byte.1 hw b hb)

theorem Over.add (h : Over p l) (h' : Over p l') : Over p (l + l') := by
  rintro w (hw | hw)
  · exact h w hw
  · exact h' w hw

theorem Over.mul (h : Over p l) (h' : Over p l') : Over p (l * l') := by
  rintro _ ⟨w, hw, u, hu, rfl⟩ b hb
  rcases List.mem_append.1 hb with hb | hb
  · exact h w hw b hb
  · exact h' u hu b hb

theorem Over.optional (h : Over p l) : Over p (optional l) := by
  intro w hw
  rcases mem_optional.1 hw with rfl | hw
  · simp
  · exact h w hw

theorem Over.star (h : Over p l) : Over p l∗ := by
  rintro _ ⟨pieces, rfl, hpieces⟩ b hb
  obtain ⟨piece, hpiece, hb⟩ := List.mem_flatten.1 hb
  exact h piece (hpieces piece hpiece) b hb

theorem newline_mem_white : Byte.newline ∈ white := by simp [white, Byte.newline]

theorem notMem_white_of_digit {b : Byte} (h : b ∈ digit) : b ∉ white := by
  rw [← isWhite_iff]
  grind [Byte.isWhite, digit]

theorem notMem_white_of_identifierPart {b : Byte} (h : b ∈ identifierPart) : b ∉ white := by
  rw [← isIdentifierPart_iff] at h
  rw [← isWhite_iff]
  grind [Byte.isWhite, Literal.Verbatim.isIdentifierPart, Byte.isLetter, Byte.isDigit, Byte.slash]

theorem notMem_white_of_mem {s : Bytes} (h : s.all (fun b => !b.isWhite) = true) :
    ∀ b ∈ s, b ∈ whiteᶜ := by
  intro b hb
  rw [Set.mem_compl_iff, ← isWhite_iff]
  simpa using List.all_eq_true.1 h b hb

theorem over_number (hdigit : ∀ b ∈ digit, b ∈ p) : Over p number := over_many_byte hdigit

/-- A double has digits and the marks of its parts. -/
theorem over_double (hdigit : ∀ b ∈ digit, b ∈ p)
    (hmark : ∀ b ∈ ([0x2E, 0x65, 0x45, 0x2B, 0x2D] : Bytes), b ∈ p) : Over p double := by
  have hpoint : Over p (fixed ".") := over_fixed fun b hb => hmark b <| by
    rw [List.mem_singleton.1 (show b ∈ [0x2E] from hb)]
    simp
  have hexponent : Over p (byte {0x65, 0x45}) := over_byte fun b hb => hmark b <| by
    rcases hb with rfl | rfl <;> simp
  have hsign : Over p (byte {0x2B, 0x2D}) := over_byte fun b hb => hmark b <| by
    rcases hb with rfl | rfl <;> simp
  have hnumber := over_number hdigit
  exact (hnumber.mul (hpoint.mul hnumber).optional).mul
    ((hexponent.mul hsign.optional).mul hnumber).optional

end Grammar

open Grammar (Over white digit)

/-- Only white space, comments and texts have white bytes. -/
theorem Literal.over_nonwhite {form : Literal} (h : form ≠ .text) : Over whiteᶜ form.language := by
  have fixed {s : String} (hs : (Bytes.ascii s).all (fun b => !b.isWhite) = true) :
      Over whiteᶜ (Grammar.fixed s) := Grammar.over_fixed (Grammar.notMem_white_of_mem hs)
  have run : Over whiteᶜ (Grammar.many (Grammar.byte whiteᶜ)) :=
    Grammar.over_many_byte fun _ hb => hb
  have hdigit : ∀ b ∈ digit, b ∈ whiteᶜ := fun _ => Grammar.notMem_white_of_digit
  cases form with
  | text => exact absurd rfl h
  | natural => exact (fixed (by decide)).mul (Grammar.over_number hdigit)
  | number => exact Grammar.over_number hdigit
  | double => exact Grammar.over_double hdigit (Grammar.notMem_white_of_mem (by decide))
  | label =>
    refine Over.add ?_ (Over.mul ((fixed (by decide)).mul (Grammar.over_many_byte ?_)) ?_)
    · refine (Grammar.over_byte fun b hb => Grammar.notMem_white_of_identifierPart ?_).mul
        (Grammar.over_star_byte fun b => Grammar.notMem_white_of_identifierPart)
      simp only [Grammar.identifierStart, Grammar.identifierPart] at hb ⊢
      rcases hb with hb | hb
      · exact Or.inl (Or.inl hb)
      · exact Or.inr (Or.inl hb)
    · exact Grammar.notMem_white_of_mem (by decide)
    · exact fixed (by decide)
  | path => exact (((fixed (by decide)).add (fixed (by decide))).add (fixed (by decide))).mul run
  | address => exact ((fixed (by decide)).add (fixed (by decide))).mul run

/-! ## How lexemes begin -/

/-- The bytes with which the lexemes of a literal begin. -/
def Literal.heads : Literal → Set Byte
  | text => {0x22}
  | natural => {0x2B}
  | number | double => digit
  | label => Grammar.identifierStart ∪ {0x28}
  | path => {0x2E, 0x2F}
  | address => {0x68}

def Rule.heads : Rule → Set Byte
  | layout .whitespace => white
  | layout .comment => {0x2D}
  | fixed lexeme _ => {b | lexeme.head? = some b}
  | literal form => form.heads

theorem Grammar.head_of_cons_mem_fixed_mul {b c : Byte} {s : String} {t w : Bytes}
    {l : Language Byte} (hs : Bytes.ascii s = c :: t) (h : b :: w ∈ fixed s * l) : b = c := by
  obtain ⟨_, rfl, u, _, heq⟩ := h
  rw [hs] at heq
  exact (List.cons.inj heq).1.symm

theorem Grammar.head_of_cons_mem_number_mul {b : Byte} {w : Bytes} {l : Language Byte}
    (h : b :: w ∈ number * l) : b ∈ digit := by
  obtain ⟨u, hu, v, -, heq⟩ := h
  obtain ⟨c, u, rfl⟩ := List.exists_cons_of_ne_nil (mem_many_byte.1 hu).1
  obtain ⟨rfl, -⟩ := List.cons.inj heq
  exact digit_of_mem_number hu (by simp)

theorem Literal.head_mem {form : Literal} {b : Byte} {w : Bytes} (h : b :: w ∈ form.language) :
    b ∈ form.heads := by
  cases form with
  | text =>
    replace h : b :: w ∈ Grammar.text := h
    rw [Grammar.text_eq] at h
    exact (Grammar.mem_of_cons_mem_byte_mul h).1
  | natural => exact Grammar.head_of_cons_mem_fixed_mul rfl h
  | number => exact Grammar.digit_of_mem_number h (by simp)
  | double =>
    replace h : b :: w ∈ Grammar.double := h
    rw [Grammar.double, mul_assoc] at h
    exact Grammar.head_of_cons_mem_number_mul h
  | label =>
    rcases h with h | h
    · exact Or.inl (Grammar.mem_of_cons_mem_byte_mul h).1
    · rw [Grammar.operatorLabel, mul_assoc] at h
      exact Or.inr (Grammar.head_of_cons_mem_fixed_mul rfl h)
  | path =>
    replace h : b :: w ∈ Grammar.path := h
    rw [Grammar.path, add_mul, add_mul] at h
    rcases h with (h | h) | h
    · exact Or.inr (Grammar.head_of_cons_mem_fixed_mul rfl h)
    · exact Or.inl (Grammar.head_of_cons_mem_fixed_mul rfl h)
    · exact Or.inl (Grammar.head_of_cons_mem_fixed_mul rfl h)
  | address =>
    replace h : b :: w ∈ Grammar.address := h
    rw [Grammar.address, add_mul] at h
    rcases h with h | h <;> exact Grammar.head_of_cons_mem_fixed_mul rfl h

theorem Rule.head_mem {rule : Rule} {b : Byte} {w : Bytes} (h : b :: w ∈ rule.language) :
    b ∈ rule.heads := by
  cases rule with
  | layout form =>
    cases form with
    | whitespace => exact (Grammar.mem_many_byte.1 h).2 b (by simp)
    | comment => exact Grammar.head_of_cons_mem_fixed_mul rfl h
  | fixed lexeme kind =>
    obtain rfl : b :: w = lexeme := h
    rfl
  | literal form => exact Literal.head_mem h

/-! ## Fixed lexemes -/

/-- A fixed lexeme has no white byte, digit or quote and does not begin a comment. -/
def Rule.isPlain : Rule → Bool
  | fixed lexeme _ => lexeme.all (fun b => !b.isWhite && !b.isDigit && b != Byte.quote) &&
      !(Bytes.ascii "--").isPrefixOf lexeme
  | _ => true

theorem Rule.isPlain_of_mem : ∀ rule ∈ rules, rule.isPlain = true := by decide

variable {lexeme : Bytes} {kind : Kind}

theorem Rule.fixed_spec (h : Rule.fixed lexeme kind ∈ rules) :
    (∀ b ∈ lexeme, b ∉ white ∧ b ∉ digit ∧ b ≠ Byte.quote) ∧ ¬ Bytes.ascii "--" <+: lexeme := by
  have hplain := isPlain_of_mem _ h
  simp only [isPlain, Bool.and_eq_true, List.all_eq_true] at hplain
  obtain ⟨hall, hprefix⟩ := hplain
  refine ⟨fun b hb => ?_, fun h => ?_⟩
  · rw [← Grammar.isWhite_iff, ← Grammar.isDigit_iff]
    simpa [and_assoc] using hall b hb
  · rw [List.isPrefixOf_iff_prefix.2 h] at hprefix
    cases hprefix

section Heads

variable {rule : Rule} {b : Byte} {w : Bytes}

/-- A lexeme that begins with a quote is a text. -/
theorem Rule.eq_text_of_head (hrule : rule ∈ rules) (h : Byte.quote :: w ∈ rule.language) :
    rule = .literal .text := by
  have hhead := head_mem h
  cases rule with
  | layout form => cases form <;> exact absurd hhead (by simp [heads, white, Byte.quote])
  | fixed lexeme kind =>
    obtain rfl : Byte.quote :: w = lexeme := h
    exact absurd rfl ((fixed_spec hrule).1 Byte.quote (by simp)).2.2
  | literal form =>
    cases form <;> simp [heads, Literal.heads, digit, Grammar.identifierStart, Grammar.letter,
      Byte.quote] at hhead ⊢

/-- A lexeme that begins with a digit is a number or a double. -/
theorem Rule.eq_numeral_of_head (hrule : rule ∈ rules) (hb : b ∈ digit)
    (h : b :: w ∈ rule.language) : rule = .literal .number ∨ rule = .literal .double := by
  have hhead := head_mem h
  cases rule with
  | layout form => cases form <;> grind [heads, white, digit]
  | fixed lexeme kind =>
    obtain rfl : b :: w = lexeme := h
    exact absurd hb ((fixed_spec hrule).1 b (by simp)).2.1
  | literal form =>
    cases form <;> simp [heads, Literal.heads, digit, Grammar.identifierStart,
      Grammar.letter] at hb hhead ⊢ <;> grind

/-- A lexeme that begins with a plus and has a digit is a natural number. -/
theorem Rule.eq_natural_of_head (hrule : rule ∈ rules) (hb : b ∈ digit) (hmem : b ∈ w)
    (h : 0x2B :: w ∈ rule.language) : rule = .literal .natural := by
  have hhead := head_mem h
  cases rule with
  | layout form => cases form <;> exact absurd hhead (by simp [heads, white])
  | fixed lexeme kind =>
    obtain rfl : 0x2B :: w = lexeme := h
    exact absurd hb ((fixed_spec hrule).1 b (by simp [hmem])).2.1
  | literal form =>
    cases form <;> simp [heads, Literal.heads, digit, Grammar.identifierStart,
      Grammar.letter] at hhead ⊢

/-- The lexeme of a token does not begin with white space. -/
theorem Rule.notMem_white_of_head (hrule : rule ∈ rules) (hlayout : rule.kind? ≠ none)
    (h : b :: w ∈ rule.language) : b ∉ white := by
  have hhead := head_mem h
  cases rule with
  | layout form => exact absurd rfl hlayout
  | fixed lexeme kind =>
    obtain rfl : b :: w = lexeme := h
    exact ((fixed_spec hrule).1 b (by simp)).1
  | literal form =>
    by_cases htext : form = .text
    · subst htext
      obtain rfl : b = 0x22 := hhead
      simp [white]
    · exact Literal.over_nonwhite htext _ h b (by simp)

/-- The lexeme of a token does not begin with two dashes. -/
theorem Rule.not_dashes_prefix (hrule : rule ∈ rules) (hlayout : rule.kind? ≠ none)
    (h : 0x2D :: w ∈ rule.language) : w.head? ≠ some 0x2D := by
  have hhead := head_mem h
  cases rule with
  | layout form => exact absurd rfl hlayout
  | fixed lexeme kind =>
    obtain rfl : 0x2D :: w = lexeme := h
    intro hdash
    obtain ⟨u, rfl⟩ := List.head?_eq_some_iff.1 hdash
    exact (fixed_spec hrule).2 ⟨u, rfl⟩
  | literal form =>
    cases form <;> simp [heads, Literal.heads, digit, Grammar.identifierStart,
      Grammar.letter] at hhead

end Heads

/-! ## In front of white space -/

open Literal.Text (ClosesEscaped)

section White

variable {rule : Rule} {b : Byte} {tail : Bytes}

/-- A beginning of two texts in a row lies in the first one or goes on into the second one. -/
theorem prefix_append_cases {w s t : Bytes} (h : w <+: s ++ t) :
    w <+: s ∨ ∃ c u, w = s ++ c :: u ∧ c :: u <+: t := by
  rcases List.prefix_or_prefix_of_prefix h (List.prefix_append s t) with hle | ⟨v, rfl⟩
  · exact Or.inl hle
  · rw [List.prefix_append_right_inj] at h
    cases v with
    | nil => exact Or.inl (by simp)
    | cons c u => exact Or.inr ⟨c, u, rfl, h⟩

/-- A rule whose lexemes may have a white byte. -/
theorem Rule.eq_of_white_mem (hrule : rule ∈ rules) {w : Bytes} (h : w ∈ rule.language)
    (hmem : b ∈ w) (hb : b ∈ white) : rule.kind? = none ∨ rule = .literal .text := by
  cases rule with
  | layout form => exact Or.inl rfl
  | fixed lexeme kind =>
    obtain rfl : w = lexeme := h
    exact absurd hb ((fixed_spec hrule).1 b hmem).1
  | literal form =>
    by_cases htext : form = .text
    · exact Or.inr (congrArg Rule.literal htext)
    · exact absurd hb (Literal.over_nonwhite htext _ h b hmem)

/-- A text that goes on to a longer one has its closing quote after a backslash, and the longer one
ends in a later quote. -/
theorem Grammar.closesEscaped_of_longer_text {u : Bytes} (hlexeme : lexeme ∈ Grammar.text)
    (hu : u ≠ []) (h : lexeme ++ u ∈ Grammar.text) : ClosesEscaped lexeme ∧ Byte.quote ∈ u := by
  obtain ⟨t, -, rfl⟩ := mem_text_iff.1 hlexeme
  obtain ⟨t', ht', heq⟩ := mem_text_iff.1 h
  obtain ⟨u, c, rfl⟩ := List.eq_nil_or_concat u |>.resolve_left hu
  have hbody : (t ++ Byte.quote :: u) ++ [c] = t' ++ [Byte.quote] := by
    simpa using (List.cons.inj heq).2
  obtain ⟨rfl, hlast⟩ := List.append_inj' hbody rfl
  obtain rfl := List.singleton_inj.1 hlast
  -- The first closing quote stays in the longer body, so a backslash stands before it.
  have hslash := (escaped_append.1 ht').2.1 rfl
  refine ⟨(Literal.Text.closesEscaped_iff t).2 ?_, by simp⟩
  cases hlast : t.getLast? with
  | none => simp [hlast] at hslash
  | some c => simpa [hlast] using hslash

/-- After a text that closes after a backslash there is no quote: it would close the text. -/
theorem Applies.quote_notMem {rest : Bytes} (h : Applies (.literal .text) lexeme (lexeme ++ rest))
    (hcloses : ClosesEscaped lexeme) : Byte.quote ∉ rest := by
  intro hquote
  obtain ⟨t, ht, rfl⟩ := Grammar.mem_text_iff.1 h.mem_language
  have hlast := (Literal.Text.closesEscaped_iff t).1 hcloses
  obtain ⟨front, back, rfl, hfront⟩ := List.eq_append_cons_of_mem hquote
  have hlonger : Byte.quote :: ((t ++ Byte.quote :: front) ++ [Byte.quote]) ∈ Grammar.text := by
    refine Grammar.mem_text_iff.2 ⟨_, Grammar.escaped_append.2 ⟨ht, ?_⟩, rfl⟩
    rw [hlast]
    exact ⟨fun _ => rfl, Grammar.escaped_of_quote_notMem hfront⟩
  have hle := h.longest _ h.mem_rules _ hlonger ⟨back, by simp⟩
  simp at hle

/-- A text that is taken when it stands alone is taken in front of any bytes, unless it closes after
a backslash and a quote is among them. -/
theorem Applies.text_append {rest : Bytes} (h : Applies (.literal .text) lexeme lexeme)
    (hquote : ClosesEscaped lexeme → Byte.quote ∉ rest) :
    Applies (.literal .text) lexeme (lexeme ++ rest) := by
  refine ⟨List.prefix_append lexeme rest, h.ne_nil, fun r hr w hw hs => ?_, h.earliest⟩
  rcases prefix_append_cases hs with hle | ⟨c, u, rfl, hu⟩
  · exact hle.length_le
  · -- A longer lexeme begins with a quote too, and it ends in a later one.
    obtain ⟨t, -, rfl⟩ := Grammar.mem_text_iff.1 h.mem_language
    obtain rfl := Rule.eq_text_of_head hr hw
    obtain ⟨hcloses, hmem⟩ :=
      Grammar.closesEscaped_of_longer_text h.mem_language (List.cons_ne_nil c u) hw
    exact absurd (hu.subset hmem) (hquote hcloses)

/-- A lexeme that begins with two dashes and is taken at the head of a text is a comment. -/
theorem Applies.kind?_of_dashes {s : Bytes} (h : Applies rule lexeme (0x2D :: 0x2D :: s)) :
    rule.kind? = none := by
  by_contra hkind
  obtain ⟨c, w, rfl⟩ := List.exists_cons_of_ne_nil h.ne_nil
  obtain ⟨rfl, hw⟩ := List.cons_prefix_cons.1 h.head
  have hdashes : Bytes.ascii "--" ∈ Rule.language (.layout .comment) :=
    ⟨_, rfl, [], Language.nil_mem_kstar _, rfl⟩
  have hlength := h.longest (.layout .comment) (by decide) _ hdashes ⟨s, rfl⟩
  cases w with
  | nil => exact absurd hlength (by decide)
  | cons d w =>
    obtain ⟨rfl, -⟩ := List.cons_prefix_cons.1 hw
    exact Rule.not_dashes_prefix h.mem_rules hkind h.mem_language rfl

/-- A lexeme of a token that is taken at the head of a text is also taken there if the text goes on
with white space. -/
theorem Applies.before_white {s : Bytes} (h : Applies rule lexeme s) (hkind : rule.kind? ≠ none)
    (hb : b ∈ white) (htext : rule = .literal .text → ClosesEscaped lexeme → Byte.quote ∉ tail) :
    Applies rule lexeme (s ++ b :: tail) := by
  obtain ⟨rest, rfl⟩ := h.head
  refine ⟨⟨rest ++ b :: tail, by simp⟩, h.ne_nil, fun r hr w hw hs => ?_, h.earliest⟩
  by_contra hlong
  -- A longer lexeme of some rule has the white byte.
  obtain ⟨u, rfl, hu⟩ : ∃ u, w = lexeme ++ rest ++ b :: u ∧ u <+: tail := by
    rcases prefix_append_cases hs with hle | ⟨c, u, rfl, hcu⟩
    · exact absurd (h.longest r hr w hw hle) hlong
    · obtain ⟨rfl, hu⟩ := List.cons_prefix_cons.1 hcu
      exact ⟨u, rfl, hu⟩
  obtain ⟨c, w, rfl⟩ := List.exists_cons_of_ne_nil h.ne_nil
  have hc := Rule.notMem_white_of_head h.mem_rules hkind h.mem_language
  rcases Rule.eq_of_white_mem hr hw (by simp) hb with hlayout | rfl
  · cases r with
    | fixed | literal => cases hlayout
    | layout form =>
      cases form with
      | whitespace => exact hc ((Grammar.mem_many_byte.1 hw).2 c (by simp))
      | comment =>
        obtain ⟨_, rfl, line, -, heq⟩ := hw
        replace heq : 0x2D :: 0x2D :: line = c :: (w ++ rest ++ b :: u) := heq
        obtain ⟨rfl, hdash⟩ := List.cons.inj heq
        cases hrest : w ++ rest with
        | nil =>
          rw [hrest] at hdash
          obtain ⟨rfl, -⟩ := List.cons.inj hdash
          simp [white] at hb
        | cons d w' =>
          rw [hrest] at hdash
          obtain ⟨rfl, -⟩ := List.cons.inj hdash
          rw [List.cons_append, hrest] at h
          exact hkind h.kind?_of_dashes
  · have htext' : c :: (w ++ rest ++ b :: u) ∈ Literal.language .text := hw
    obtain rfl : c = Byte.quote := Literal.head_mem htext'
    obtain rfl := Rule.eq_text_of_head h.mem_rules h.mem_language
    have hwhite : b ≠ Byte.quote := by
      rintro rfl
      simp [white, Byte.quote] at hb
    have hgoes : Applies _ _ (_ ++ (rest ++ b :: tail)) := h.alone.text_append fun hcloses => by
      simp [h.quote_notMem hcloses, hwhite.symm, htext rfl hcloses]
    exact hlong (hgoes.longest _ hr _ hw (by simpa using hs))

end White

end Munch
