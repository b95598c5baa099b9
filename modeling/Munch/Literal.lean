import Munch.Literal.Text
import Munch.Literal.Double
import Munch.Literal.Verbatim
import Munch.Token.Basic

/-!
# Literals

The forms of lexemes that carry a value. Each form has an extent at the head of a source, a
kind of token, and a way to read the value from the lexeme.
-/
namespace Munch

inductive Literal
  | text
  | natural
  | number
  | double
  | label
  | path
  | address
deriving DecidableEq, Repr

namespace Literal

/-- The length of the literal of this form at the head of a source; zero if there is
none. -/
def extent : Literal → Bytes → Nat
  | text => Text.extent
  | natural => Numeral.naturalExtent
  | number => Numeral.numberExtent
  | double => Double.extent
  | label => Verbatim.labelExtent
  | path => Verbatim.pathExtent
  | address => Verbatim.addressExtent

def kind : Literal → Kind
  | text => .text
  | natural => .natural
  | number => .number
  | double => .double
  | label => .label
  | path => .file
  | address => .url

/-- The value that a lexeme of this form writes. -/
def read : Literal → Bytes → Except Refusal Payload
  | text, s => (Text.unquote s).map .text
  | natural, s => (Numeral.readNatural s).map .natural
  | number, s => (Numeral.readNumber s).map .natural
  | double, s => (Double.read s).map .double
  | label, s => (Verbatim.read s).map .text
  | path, s => (Verbatim.readPath s).map .path
  | address, s => (Verbatim.read s).map .text

/-- What a form reads fits the form's kind. -/
theorem read_fits {form : Literal} {s : Bytes} {payload : Payload}
    (h : form.read s = .ok payload) : payload.Fits form.kind := by
  have ok_of_map {α : Type} {x : Except Refusal α} {f : α → Payload}
      (h : x.map f = .ok payload) : ∃ a, f a = payload := by
    cases x with
    | error => simp [Except.map] at h
    | ok a => exact ⟨a, by simpa [Except.map] using h⟩
  cases form <;> obtain ⟨a, rfl⟩ := ok_of_map h <;> simp [Payload.Fits, kind]

end Literal
end Munch
