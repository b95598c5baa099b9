import Munch.Kind
import Munch.Position
import Munch.LimbNat
import Munch.Binary64.Basic

/-!
# Tokens

A token has a kind, the value that its lexeme writes, the bytes of the source that it covers
and the position of the first of them.
-/
namespace Munch

/-- The bytes from `first` up to, not including, `last`. -/
structure Span where
  first : Nat
  last : Nat
deriving DecidableEq, Repr

inductive Payload
  | none
  | text (s : Bytes)
  | natural (n : LimbNat)
  | double (d : Binary64)
  | path (s : Bytes)
deriving DecidableEq, Repr

structure Token where
  kind : Kind
  payload : Payload
  span : Span
  position : Position
deriving DecidableEq, Repr

/-- The payload is of the form that the kind asks for. -/
def Payload.Fits : Payload → Kind → Prop
  | .text _, kind => kind = .text ∨ kind = .label ∨ kind = .url
  | .natural _, kind => kind = .natural ∨ kind = .number
  | .double _, kind => kind = .double
  | .path _, kind => kind = .file
  | .none, kind => kind ∉ [.text, .label, .url, .natural, .number, .double, .file]

instance (payload : Payload) (kind : Kind) : Decidable (payload.Fits kind) := by
  cases payload <;> unfold Payload.Fits <;> infer_instance

end Munch
