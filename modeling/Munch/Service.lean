import Munch.Report

/-!
# The lexing service

Two calls for clients that hold a zero-terminated source and want JSON back: one for the
tokens and one for the diagnostics. Each answers with a status and with one of two texts,
the JSON asked for or an error.

## Main definitions

* `Service.Call`: a source, and whether the client takes either text.
* `Service.tokenize`, `Service.check`: the two calls.
-/
namespace Munch.Service

/-- What a client hands over: the source, unless it is missing, and whether there is a place
for the JSON and one for the error. -/
structure Call where
  source : Option Bytes
  takesJson : Bool
  takesError : Bool
deriving DecidableEq, Repr

structure Reply where
  status : Nat
  json : Option Bytes
  error : Option Bytes
deriving DecidableEq, Repr

/-- The reply to a call with anything missing. -/
def badCall : Reply := ⟨1, none, none⟩

def success (value : Json) : Reply := ⟨0, some (value.print .compact), none⟩

/-- The reply where a token does not hold a value of its kind. Tokens of a source always do. -/
def internalError : Reply := ⟨3, none, some (.ascii "std::get: wrong index for variant")⟩

def lexicalError (d : Diagnostic) : Reply :=
  ⟨4, none, some ((Report.diagnostic d).print .compact)⟩

/-- The source of a call that is complete. -/
def Call.source? (call : Call) : Option Bytes :=
  if call.takesJson && call.takesError then call.source.map Bytes.untilZero else none

/-- The tokens of a source, or its diagnostic as the error. -/
def tokenize (call : Call) : Reply :=
  match call.source? with
  | none => badCall
  | some source =>
    match Munch.tokenize source with
    | .error d => lexicalError d
    | .ok ts => ((Report.tokens? ts).map success).getD internalError

/-- The diagnostics of a source: none or one. -/
def check (call : Call) : Reply :=
  match call.source? with
  | none => badCall
  | some source =>
    match Munch.tokenize source with
    | .error d => success (Report.diagnostics [Report.diagnostic d])
    | .ok _ => success (Report.diagnostics [])

end Munch.Service
