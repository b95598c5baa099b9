import Munch.Token.Basic
import Munch.Literal.Text
import Munch.Binary64.Text

/-!
# The text of a token

A token is rendered as a lexeme of its kind that writes its payload. A payload that does not
fit the kind is rendered as the empty or zero value of the kind.
-/
namespace Munch.Token

/-- The text of a double in a source. A text of digits alone would be read as a number, so it
is given a fraction. -/
def withFraction (text : Bytes) : Bytes :=
  if text.any (Bytes.ascii ".eEni").contains then text else text ++ .ascii ".0"

def render (t : Token) : Bytes :=
  match t.kind, t.payload with
  | .text, .text s => Literal.Text.quote s
  | .text, _ => Literal.Text.quote []
  | .natural, .natural n => .ascii "+" ++ n.decimal
  | .natural, _ => .ascii "+0"
  | .number, .natural n => n.decimal
  | .number, _ => .ascii "0"
  | .double, .double d => withFraction (d.text .listing)
  | .double, _ => .ascii "0.0"
  | .label, .text s | .url, .text s | .file, .path s => s
  | kind, _ => kind.spelling

/-- The line of a token in a listing: position, kind and text; the end of the source has no
text. -/
def line (t : Token) : Bytes :=
  let place := Bytes.decimal t.position.line ++ .ascii ":" ++ Bytes.decimal t.position.col
  let kind := place ++ .ascii " " ++ .ascii t.kind.name
  if t.kind = .eof then kind else kind ++ .ascii " " ++ t.render

end Munch.Token
