import Munch.Fault
import Munch.Position

/-!
# Diagnostics

A diagnostic reports why a source could not be lexed: the kind and message of the fault, the
offset and position of the byte at which it was found, and the fragment of the source there.
-/
namespace Munch

structure Diagnostic where
  kind : FaultKind
  message : Bytes
  offset : Nat
  position : Position
  fragment : Bytes
deriving DecidableEq, Repr

namespace Diagnostic

/-- The report of a fault found at the head of `rest`. -/
def ofFault (fault : Fault) (offset : Nat) (position : Position) (rest : Bytes) :
    Diagnostic :=
  ⟨fault.kind, fault.message, offset, position, Utf8.fragment rest⟩

/-- The message with the position in front of it, as a zero-terminated text: a zero byte in
the message ends it. -/
def what (d : Diagnostic) : Bytes :=
  Bytes.untilZero <|
    .ascii "[line " ++ Bytes.decimal d.position.line ++ .ascii ":" ++
      Bytes.decimal d.position.col ++ .ascii "] " ++ d.message

end Diagnostic
end Munch
