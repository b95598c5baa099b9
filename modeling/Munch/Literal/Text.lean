import Munch.Fault

/-!
# Text literals

A text literal stands between quotes. In its extent a backslash is both a byte of its own
and the first of an escaped pair, so that `"a\"` may end at its second quote or go on to a
later one; the last quote that either reading reaches closes the literal. Decoding pairs
every backslash with the byte after it.

## Main definitions

* `Text.extent`: the length of the literal at the head of a source.
* `Text.escapes`, `Text.writtenEscapes`: the codes that are read and those that are written.
* `Text.quote`: the literal that writes a text.
* `Text.unquote`: the text that a literal writes, or the first fault in it.
-/
namespace Munch.Literal.Text

/-! ## Extent -/

/-- Scans the bytes after the opening quote. `plain` and `paired` say whether the byte at
`index` can be one of its own and whether it can be the second of an escaped pair; `best`
is the end of the last literal found. -/
def lastClose (plain paired : Bool) (best index : Nat) : Bytes → Nat
  | [] => best
  | b :: s =>
    if plain || paired then
      lastClose (paired || (plain && b != Byte.quote)) (plain && b == Byte.backslash)
        (if plain && b == Byte.quote then index + 1 else best) (index + 1) s
    else best

/-- The length of the text literal at the head of a source; zero if there is none. -/
def extent : Bytes → Nat
  | [] => 0
  | b :: s => if b = Byte.quote then lastClose true false 0 1 s else 0

/-! ## Escapes -/

/-- The codes that may follow a backslash, each with the byte it stands for. -/
def escapes : List (Byte × Byte) :=
  [(0x22, 0x22), (0x5C, 0x5C), (0x2F, 0x2F), (0x27, 0x27), (0x62, 0x08), (0x66, 0x0C),
   (0x6E, 0x0A), (0x72, 0x0D), (0x74, 0x09), (0x76, 0x0B), (0x61, 0x07), (0x30, 0x00)]

def escapeValue? (code : Byte) : Option Byte := escapes.lookup code

/-- The bytes that are written as a pair, each with the code that stands for it. -/
def writtenEscapes : List (Byte × Byte) :=
  [(0x22, 0x22), (0x5C, 0x5C), (0x0A, 0x6E), (0x0D, 0x72), (0x09, 0x74), (0x08, 0x62),
   (0x0C, 0x66), (0x0B, 0x76), (0x07, 0x61), (0x00, 0x30)]

/-- The code that writes a byte, for the bytes that are written escaped. -/
def escapeCode? (b : Byte) : Option Byte := writtenEscapes.lookup b

def escape (b : Byte) : Bytes :=
  match escapeCode? b with
  | some code => [Byte.backslash, code]
  | none => [b]

/-- The literal that writes a text. -/
def quote (s : Bytes) : Bytes := Byte.quote :: (s.flatMap escape ++ [Byte.quote])

/-! ## Decoding -/

/-- Replaces the escaped pairs of a literal's body, which begins at `index`. -/
def unescape (index : Nat) : Bytes → Except Refusal Bytes
  | [] => .ok []
  | b :: s =>
    if b = Byte.backslash then
      match s with
      | [] => .error ⟨.danglingEscape, index⟩
      | code :: s =>
        match escapeValue? code with
        | some value => (unescape (index + 2) s).map (value :: ·)
        | none => .error ⟨.unknownEscape code, index⟩
    else (unescape (index + 1) s).map (b :: ·)

/-- What stands between the first and the last byte. -/
def body (literal : Bytes) : Bytes := (literal.drop 1).dropLast

/-- The literal has an opening and a closing quote. -/
def isQuoted (literal : Bytes) : Bool :=
  2 ≤ literal.length && literal.head? == some Byte.quote && literal.getLast? == some Byte.quote

/-- The text that a literal writes. Missing quotes are found first, then bytes that are no
UTF-8, then escapes. -/
def unquote (literal : Bytes) : Except Refusal Bytes :=
  if !isQuoted literal then .error ⟨.unterminatedText, 0⟩
  else
    match Utf8.firstFault? literal with
    | some index => .error ⟨.illFormedText, index⟩
    | none => unescape 1 (body literal)

end Munch.Literal.Text
