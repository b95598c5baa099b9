import Munch.Bytes

/-!
# Layout

Layout stands between tokens and yields none: runs of white space, and comments that begin
with two dashes and end before the next line feed.
-/
namespace Munch

inductive Layout
  | whitespace
  | comment
deriving DecidableEq, Repr

namespace Layout

/-- The length of the layout of this form at the head of a text; zero if there is none. -/
def extent : Layout → Bytes → Nat
  | whitespace, s => (s.takeWhile Byte.isWhite).length
  | comment, s =>
    if (Bytes.ascii "--").isPrefixOf s then
      2 + ((s.drop 2).takeWhile (· ≠ Byte.newline)).length
    else 0

end Layout
end Munch
