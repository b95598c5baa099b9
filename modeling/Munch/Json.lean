import Munch.Utf8
import Munch.Binary64.Text

/-!
# JSON values

A JSON value is printed on one line or with every member on a line of its own. Texts are
printed as UTF-8 whatever bytes they hold: a piece that is ill-formed is printed as the
replacement character. A double that is infinite or a NaN has no number in JSON and is
printed as `null`. Which digits are printed for a magnitude is a parameter: any that are read
back as the magnitude will do.

## Main definitions

* `Json`: the values; the fields of an object are printed in the order they are held in.
* `Json.Style`: one line, or indented by a number of spaces.
* `Json.quoted`: the printed form of a text.
* `Json.printWith`: the printed form of a value, given the digits of doubles.
* `Json.print`: the printed form with the shortest digits.
-/
namespace Munch

inductive Json
  | natural (n : Nat)
  | double (d : Binary64)
  | text (s : Bytes)
  | array (items : List Json)
  | object (fields : List (String × Json))

namespace Json

/-! ## Texts -/

/-- The UTF-8 encoding of the replacement character, U+FFFD. -/
def replacement : Bytes := [0xEF, 0xBF, 0xBD]

/-- An ASCII byte of a text: quotes, backslashes and controls are escaped. -/
def escapeAscii (b : Byte) : Bytes :=
  if b = 0x22 then .ascii "\\\""
  else if b = 0x5C then .ascii "\\\\"
  else if b = 0x08 then .ascii "\\b"
  else if b = 0x0C then .ascii "\\f"
  else if b = 0x0A then .ascii "\\n"
  else if b = 0x0D then .ascii "\\r"
  else if b = 0x09 then .ascii "\\t"
  else if b < 0x20 then .ascii "\\u00" ++ Bytes.hex b
  else [b]

/-- The head of a text that is printed as one piece, and how it is printed. -/
def piece (s : Bytes) : Nat × Bytes :=
  match Utf8.codePointLength? s with
  | none => (Utf8.illFormedLength s, replacement)
  | some n => (n, if n = 1 then (s.take 1).flatMap escapeAscii else s.take n)

theorem piece_length_pos {s : Bytes} (h : s ≠ []) : 0 < (piece s).1 := by
  unfold piece
  split
  · cases s with
    | nil => simp at h
    | cons b s => exact Utf8.illFormedLength_pos b s
  · exact Utf8.codePointLength?_pos ‹_›

def escape (s : Bytes) : Bytes :=
  if s = [] then [] else (piece s).2 ++ escape (s.drop (piece s).1)
termination_by s.length
decreasing_by
  have := piece_length_pos ‹s ≠ []›
  have := List.length_pos_iff.2 ‹s ≠ []›
  simp only [List.length_drop]
  omega

def quoted (s : Bytes) : Bytes := Byte.quote :: (escape s ++ [Byte.quote])

/-! ## Values -/

inductive Style
  | compact
  | indented (width : Nat)
deriving DecidableEq, Repr

namespace Style

/-- A negative indent asks for one line. -/
def ofIndent : Int → Style
  | .ofNat width => indented width
  | .negSucc _ => compact

/-- What stands before a member or a closing bracket at a depth. -/
def lineBreak : Style → Nat → Bytes
  | compact, _ => []
  | indented width, depth => Byte.newline :: List.replicate (depth * width) 0x20

/-- What stands between a key and its value. -/
def colon : Style → Bytes
  | compact => .ascii ":"
  | indented _ => .ascii ": "

end Style

section Print

variable (digits : Nat → Decimal) (style : Style)

def number (d : Binary64) : Bytes :=
  if d.isFinite then d.finiteText digits .json else .ascii "null"

mutual

/-- The printed form of a value whose brackets stand at the given depth. -/
def printAt (depth : Nat) : Json → Bytes
  | natural n => Bytes.decimal n
  | double d => number digits d
  | text s => quoted s
  | array [] => .ascii "[]"
  | array (item :: items) =>
    .ascii "[" ++ style.lineBreak (depth + 1) ++ printAt (depth + 1) item ++
      printItems depth items
  | object [] => .ascii "\x7b\x7d"
  | object ((key, value) :: fields) =>
    .ascii "\x7b" ++ style.lineBreak (depth + 1) ++ quoted (.ascii key) ++ style.colon ++
      printAt (depth + 1) value ++ printFields depth fields

/-- The items after the first, and the closing bracket. -/
def printItems (depth : Nat) : List Json → Bytes
  | [] => style.lineBreak depth ++ .ascii "]"
  | item :: items =>
    .ascii "," ++ style.lineBreak (depth + 1) ++ printAt (depth + 1) item ++
      printItems depth items

/-- The fields after the first, and the closing brace. -/
def printFields (depth : Nat) : List (String × Json) → Bytes
  | [] => style.lineBreak depth ++ .ascii "\x7d"
  | (key, value) :: fields =>
    .ascii "," ++ style.lineBreak (depth + 1) ++ quoted (.ascii key) ++ style.colon ++
      printAt (depth + 1) value ++ printFields depth fields

end

def printWith (value : Json) : Bytes := printAt digits style 0 value

end Print

def print (style : Style) (value : Json) : Bytes := printWith Binary64.shortest style value

end Json
end Munch
