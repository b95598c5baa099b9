import Munch.Fault

/-!
# Labels, paths and addresses

These lexemes are taken as they are written, provided that they are UTF-8. A label is an
identifier or an operator in parentheses. A path begins with `/`, `./` or `../`, an address
with `http://` or `https://`, and both run to the next white space. A path that begins with
`./` is taken without these two bytes.
-/
namespace Munch.Literal.Verbatim

/-- A byte of an identifier after its first. -/
def isIdentifierPart (b : Byte) : Bool :=
  b.isLetter || b.isDigit || b == 0x5F || b == Byte.slash

def identifierExtent : Bytes → Nat
  | [] => 0
  | b :: s =>
    if b.isLetter || b == 0x5F then 1 + (s.takeWhile isIdentifierPart).length else 0

/-- An opening parenthesis, one or more operator bytes and a closing parenthesis. -/
def operatorExtent : Bytes → Nat
  | [] => 0
  | b :: s =>
    let operator := (s.takeWhile Byte.isOperator).length
    if b = 0x28 ∧ operator ≠ 0 ∧ s[operator]? = some 0x29 then operator + 2 else 0

def labelExtent (s : Bytes) : Nat := max (identifierExtent s) (operatorExtent s)

/-- The length of the first of some beginnings that stands at the head, with the run of
bytes other than white space after it; zero if the run is empty or no beginning stands
there. -/
def runExtent (beginnings : List Bytes) (s : Bytes) : Nat :=
  match beginnings.find? (·.isPrefixOf s) with
  | none => 0
  | some beginning =>
    let run := ((s.drop beginning.length).takeWhile fun b => !b.isWhite).length
    if run = 0 then 0 else beginning.length + run

def pathExtent (s : Bytes) : Nat :=
  runExtent [Bytes.ascii "../", Bytes.ascii "./", Bytes.ascii "/"] s

def addressExtent (s : Bytes) : Nat :=
  runExtent [Bytes.ascii "https://", Bytes.ascii "http://"] s

/-- A text as it is, provided that it is UTF-8. -/
def read (s : Bytes) : Except Refusal Bytes :=
  match Utf8.firstFault? s with
  | some index => .error ⟨.illFormedSequence, index⟩
  | none => .ok s

/-- A path without a leading `./`. -/
def readPath (s : Bytes) : Except Refusal Bytes :=
  if (Bytes.ascii "./").isPrefixOf s then (read (s.drop 2)).mapError (Refusal.shift 2)
  else read s

end Munch.Literal.Verbatim
