import Munch.Utf8

/-!
# Lexical faults

A fault is the cause for which a source, or a literal in it, is refused. It belongs to one
of five kinds and has a message. A refusal adds the index of the faulty byte.
-/
namespace Munch

/-- The kinds of faults, and one that stands for a kind from elsewhere. -/
inductive FaultKind
  | unmatchedCharacter
  | invalidEscape
  | invalidNumericLiteral
  | invalidUtf8
  | unterminatedText
  | unknown
deriving DecidableEq, Repr

namespace FaultKind

def name : FaultKind → String
  | unmatchedCharacter => "UnmatchedCharacter"
  | invalidEscape => "InvalidEscape"
  | invalidNumericLiteral => "InvalidNumericLiteral"
  | invalidUtf8 => "InvalidUtf8"
  | unterminatedText => "UnterminatedText"
  | unknown => "Unknown"

/-- The five kinds in their numbered order. -/
def all : List FaultKind :=
  [unmatchedCharacter, invalidEscape, invalidNumericLiteral, invalidUtf8, unterminatedText]

/-- The kind of a number, counted from zero. -/
def ofIndex : Int → FaultKind
  | .ofNat i => all.getD i unknown
  | .negSucc _ => unknown

end FaultKind

inductive Fault
  /-- No rule matches; the fragment is the code point or the byte found. -/
  | unmatched (fragment : Bytes)
  | malformedInteger
  | malformedDouble
  | missingFraction
  | missingExponent
  | trailingCharacters
  | outOfRange
  | unterminatedText
  | illFormedText
  | danglingEscape
  | unknownEscape (code : Byte)
  | illFormedSequence
deriving DecidableEq, Repr

namespace Fault

def kind : Fault → FaultKind
  | unmatched _ => .unmatchedCharacter
  | malformedInteger | malformedDouble | missingFraction | missingExponent
  | trailingCharacters | outOfRange => .invalidNumericLiteral
  | unterminatedText => .unterminatedText
  | illFormedText | illFormedSequence => .invalidUtf8
  | danglingEscape | unknownEscape _ => .invalidEscape

/-- What was found where no rule matches: a printable character and a whole code point are
shown as they are, any other byte by its number. -/
def describe (fragment : Bytes) : Bytes :=
  let shown := Bytes.ascii "unexpected character '" ++ fragment ++ Bytes.ascii "'"
  match fragment with
  | [] => shown
  | [b] =>
    if 0x20 ≤ b ∧ b < 0x7F then shown else Bytes.ascii "unexpected byte 0x" ++ Bytes.hex b
  | _ => shown

def message : Fault → Bytes
  | unmatched fragment => describe fragment
  | malformedInteger => .ascii "malformed integer literal"
  | malformedDouble => .ascii "malformed double literal"
  | missingFraction => .ascii "missing digits after '.'"
  | missingExponent => .ascii "missing exponent digits"
  | trailingCharacters => .ascii "trailing characters in double literal"
  | outOfRange => .ascii "double literal out of range"
  | unterminatedText => .ascii "unterminated text literal"
  | illFormedText => .ascii "invalid UTF-8 in text literal"
  | danglingEscape => .ascii "dangling '\\' at end of text literal"
  | unknownEscape code => Bytes.ascii "unknown escape sequence '\\" ++ [code] ++ Bytes.ascii "'"
  | illFormedSequence => .ascii "invalid UTF-8 sequence"

end Fault

/-- A fault and the index of the byte at which it was found. -/
structure Refusal where
  fault : Fault
  index : Nat
deriving DecidableEq, Repr

/-- The same refusal seen from `n` bytes earlier. -/
def Refusal.shift (n : Nat) (r : Refusal) : Refusal := { r with index := r.index + n }

end Munch
