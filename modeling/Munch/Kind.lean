import Munch.Bytes

/-!
# Kinds of tokens

Every kind has a stable name. A kind with one spelling is fixed; the kinds with a payload
and the end of the source have no spelling. `unknown` stands for a kind from elsewhere: no
rule yields it.
-/
namespace Munch

inductive Kind
  | eof
  | leftParen | rightParen
  | leftBrace | rightBrace
  | doubleLeftBrace | doubleRightBrace
  | leftBracket | rightBracket
  | colon | comma | dot | equal
  | andAnd | orOr
  | plus | plusPlus
  | minus | star
  | arrow | lambda | atSign
  | letKeyword | inKeyword
  | typeKeyword | kindKeyword | forallKeyword
  | boolKeyword | trueKeyword | falseKeyword
  | ifKeyword | thenKeyword | elseKeyword
  | naturalKeyword | naturalFoldKeyword
  | integerKeyword | textKeyword | doubleKeyword
  | maybeKeyword | nothingKeyword | justKeyword
  | listBuildKeyword | listFoldKeyword
  | text | natural | double | number
  | label | file | url
  | unknown
deriving DecidableEq, Repr

namespace Kind

/-- The known kinds in their numbered order. -/
def all : List Kind :=
  [eof, leftParen, rightParen, leftBrace, rightBrace, doubleLeftBrace, doubleRightBrace,
   leftBracket, rightBracket, colon, comma, dot, equal, andAnd, orOr, plus, plusPlus, minus,
   star, arrow, lambda, atSign, letKeyword, inKeyword, typeKeyword, kindKeyword,
   forallKeyword, boolKeyword, trueKeyword, falseKeyword, ifKeyword, thenKeyword,
   elseKeyword, naturalKeyword, naturalFoldKeyword, integerKeyword, textKeyword,
   doubleKeyword, maybeKeyword, nothingKeyword, justKeyword, listBuildKeyword,
   listFoldKeyword, text, natural, double, number, label, file, url]

/-- The kind of a number, counted from zero. -/
def ofIndex : Int → Kind
  | .ofNat i => all.getD i unknown
  | .negSucc _ => unknown

def name : Kind → String
  | eof => "Eof"
  | leftParen => "LParen"
  | rightParen => "RParen"
  | leftBrace => "LBrace"
  | rightBrace => "RBrace"
  | doubleLeftBrace => "LDoubleBrace"
  | doubleRightBrace => "RDoubleBrace"
  | leftBracket => "LBracket"
  | rightBracket => "RBracket"
  | colon => "Colon"
  | comma => "Comma"
  | dot => "Dot"
  | equal => "Equal"
  | andAnd => "AndAnd"
  | orOr => "OrOr"
  | plus => "Plus"
  | plusPlus => "PlusPlus"
  | minus => "Minus"
  | star => "Star"
  | arrow => "Arrow"
  | lambda => "Lambda"
  | atSign => "At"
  | letKeyword => "KwLet"
  | inKeyword => "KwIn"
  | typeKeyword => "KwType"
  | kindKeyword => "KwKind"
  | forallKeyword => "KwForall"
  | boolKeyword => "KwBool"
  | trueKeyword => "KwTrue"
  | falseKeyword => "KwFalse"
  | ifKeyword => "KwIf"
  | thenKeyword => "KwThen"
  | elseKeyword => "KwElse"
  | naturalKeyword => "KwNatural"
  | naturalFoldKeyword => "KwNaturalFold"
  | integerKeyword => "KwInteger"
  | textKeyword => "KwText"
  | doubleKeyword => "KwDouble"
  | maybeKeyword => "KwMaybe"
  | nothingKeyword => "KwNothing"
  | justKeyword => "KwJust"
  | listBuildKeyword => "KwListBuild"
  | listFoldKeyword => "KwListFold"
  | text => "TextLit"
  | natural => "NaturalLit"
  | double => "DoubleLit"
  | number => "Number"
  | label => "Label"
  | file => "File"
  | url => "Url"
  | unknown => "Unknown"

/-- The one spelling in which a fixed kind is written; empty for every other kind. -/
def spelling : Kind → Bytes
  | leftParen => .ascii "("
  | rightParen => .ascii ")"
  | leftBrace => .ascii "\x7b"
  | rightBrace => .ascii "\x7d"
  | doubleLeftBrace => .ascii "\x7b\x7b"
  | doubleRightBrace => .ascii "\x7d\x7d"
  | leftBracket => .ascii "["
  | rightBracket => .ascii "]"
  | colon => .ascii ":"
  | comma => .ascii ","
  | dot => .ascii "."
  | equal => .ascii "="
  | andAnd => .ascii "&&"
  | orOr => .ascii "||"
  | plus => .ascii "+"
  | plusPlus => .ascii "++"
  | minus => .ascii "-"
  | star => .ascii "*"
  | arrow => .ascii "->"
  | lambda => .ascii "\\"
  | atSign => .ascii "@"
  | letKeyword => .ascii "let"
  | inKeyword => .ascii "in"
  | typeKeyword => .ascii "Type"
  | kindKeyword => .ascii "Kind"
  | forallKeyword => .ascii "forall"
  | boolKeyword => .ascii "Bool"
  | trueKeyword => .ascii "True"
  | falseKeyword => .ascii "False"
  | ifKeyword => .ascii "if"
  | thenKeyword => .ascii "then"
  | elseKeyword => .ascii "else"
  | naturalKeyword => .ascii "Natural"
  | naturalFoldKeyword => .ascii "Natural/fold"
  | integerKeyword => .ascii "Integer"
  | textKeyword => .ascii "Text"
  | doubleKeyword => .ascii "Double"
  | maybeKeyword => .ascii "Maybe"
  | nothingKeyword => .ascii "Nothing"
  | justKeyword => .ascii "Just"
  | listBuildKeyword => .ascii "List/build"
  | listFoldKeyword => .ascii "List/fold"
  | eof | text | natural | double | number | label | file | url | unknown => []

end Kind
end Munch
