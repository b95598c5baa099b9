import Mathlib.Computability.Language
import Munch.Rule

/-!
# The grammar of lexemes

Every rule has a regular language: the lexemes that it may match, written with unions,
products and stars of byte sets and fixed texts. The languages overlap, and nothing here says
which rule wins or how a lexeme is found.

## Main definitions

* `Grammar.byte`, `Grammar.fixed`, `Grammar.many`, `Grammar.optional`: the building blocks.
* `Rule.language`: the language of a rule.
-/
namespace Munch.Grammar

open scoped Computability

/-! ## Building blocks -/

/-- The texts of one byte from a set. -/
def byte (p : Set Byte) : Language Byte := {s | ∃ b ∈ p, s = [b]}

/-- The one text written in ASCII. -/
def fixed (s : String) : Language Byte := {Bytes.ascii s}

/-- One or more texts of a language in a row. -/
def many (l : Language Byte) : Language Byte := l * l∗

def optional (l : Language Byte) : Language Byte := 1 + l

theorem mem_star_byte {p : Set Byte} {s : Bytes} : s ∈ (byte p)∗ ↔ ∀ b ∈ s, b ∈ p := by
  constructor
  · rintro ⟨pieces, rfl, h⟩ b hb
    obtain ⟨piece, hpiece, hb⟩ := List.mem_flatten.1 hb
    obtain ⟨c, hc, rfl⟩ := h piece hpiece
    exact List.mem_singleton.1 hb ▸ hc
  · intro h
    refine Language.mem_kstar.2 ⟨s.map fun b => [b], ?_, fun piece hpiece => ?_⟩
    · rw [← List.flatMap_def, List.flatMap_singleton']
    obtain ⟨b, hb, rfl⟩ := List.mem_map.1 hpiece
    exact ⟨b, h b hb, rfl⟩

theorem mem_many_byte {p : Set Byte} {s : Bytes} :
    s ∈ many (byte p) ↔ s ≠ [] ∧ ∀ b ∈ s, b ∈ p := by
  constructor
  · rintro ⟨_, ⟨b, hb, rfl⟩, t, ht, rfl⟩
    exact ⟨List.cons_ne_nil b t, List.forall_mem_cons.2 ⟨hb, mem_star_byte.1 ht⟩⟩
  · rintro ⟨hs, h⟩
    obtain ⟨b, t, rfl⟩ := List.exists_cons_of_ne_nil hs
    exact ⟨[b], ⟨b, h b (by simp), rfl⟩, t,
      mem_star_byte.2 fun c hc => h c (by simp [hc]), rfl⟩

theorem mem_optional {l : Language Byte} {s : Bytes} : s ∈ optional l ↔ s = [] ∨ s ∈ l :=
  Iff.rfl

/-! ## Byte sets -/

/-- Space, tab, line feed, carriage return, form feed and vertical tab. -/
def white : Set Byte := {0x20, 0x09, 0x0A, 0x0D, 0x0C, 0x0B}

def digit : Set Byte := {b | 0x30 ≤ b ∧ b ≤ 0x39}

def letter : Set Byte := {b | 0x61 ≤ b ∧ b ≤ 0x7A} ∪ {b | 0x41 ≤ b ∧ b ≤ 0x5A}

def identifierStart : Set Byte := letter ∪ {0x5F}

def identifierPart : Set Byte := letter ∪ digit ∪ {0x5F, 0x2F}

def operator : Set Byte := {b | b ∈ Bytes.ascii "!#$%&*+./<=>?@\\^|-~"}

theorem isWhite_iff {b : Byte} : b.isWhite = true ↔ b ∈ white := by
  simp only [Byte.isWhite, white, Set.mem_insert_iff, Set.mem_singleton_iff]
  grind

theorem isDigit_iff {b : Byte} : b.isDigit = true ↔ b ∈ digit := by
  simp [Byte.isDigit, digit]

theorem isOperator_iff {b : Byte} : b.isOperator = true ↔ b ∈ operator := by
  simp [Byte.isOperator, operator]

theorem isIdentifierStart_iff {b : Byte} :
    (b.isLetter || b == 0x5F) = true ↔ b ∈ identifierStart := by
  simp [Byte.isLetter, identifierStart, letter]
  tauto

theorem isIdentifierPart_iff {b : Byte} :
    Literal.Verbatim.isIdentifierPart b = true ↔ b ∈ identifierPart := by
  simp [Literal.Verbatim.isIdentifierPart, Byte.isLetter, Byte.isDigit, Byte.slash,
    identifierPart, letter, digit]
  tauto

/-! ## Languages -/

def whitespace : Language Byte := many (byte white)

/-- Two dashes and the rest of the line. -/
def comment : Language Byte := fixed "--" * (byte {0x0A}ᶜ)∗

/-- What stands between the quotes of a text: bytes other than quotes, the backslash among
them, and pairs of a backslash and any byte. -/
def textBody : Language Byte := (byte {0x22}ᶜ + byte {0x5C} * byte Set.univ)∗

def text : Language Byte := fixed "\"" * textBody * fixed "\""

def number : Language Byte := many (byte digit)

def natural : Language Byte := fixed "+" * number

def fraction : Language Byte := fixed "." * number

def exponent : Language Byte := byte {0x65, 0x45} * optional (byte {0x2B, 0x2D}) * number

def double : Language Byte := number * optional fraction * optional exponent

def identifier : Language Byte := byte identifierStart * (byte identifierPart)∗

/-- An operator in parentheses. -/
def operatorLabel : Language Byte := fixed "(" * many (byte operator) * fixed ")"

def path : Language Byte := (fixed "/" + fixed "./" + fixed "../") * many (byte whiteᶜ)

def address : Language Byte := (fixed "http://" + fixed "https://") * many (byte whiteᶜ)

end Grammar

def Layout.language : Layout → Language Byte
  | whitespace => Grammar.whitespace
  | comment => Grammar.comment

def Literal.language : Literal → Language Byte
  | text => Grammar.text
  | natural => Grammar.natural
  | number => Grammar.number
  | double => Grammar.double
  | label => Grammar.identifier + Grammar.operatorLabel
  | path => Grammar.path
  | address => Grammar.address

/-- The lexemes that a rule may match. -/
def Rule.language : Rule → Language Byte
  | layout form => form.language
  | fixed lexeme _ => {lexeme}
  | literal form => form.language

end Munch
