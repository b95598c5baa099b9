import Munch.Json
import Munch.Reading
import Munch.Token.Render

/-!
# JSON reports

Tokens and diagnostics as JSON. The fields of every object stand in ascending order of their
keys. A token has a report only if its payload fits its kind.
-/
namespace Munch

/-- The value field of a token's report: none for a fixed kind, and no report at all for a
payload that does not fit. -/
def Token.valueFields? (t : Token) : Option (List (String × Json)) :=
  match t.kind, t.payload with
  | .text, .text s | .label, .text s | .url, .text s => some [("value", .text s)]
  | .natural, .natural n | .number, .natural n => some [("value", .text n.decimal)]
  | .double, .double d => some [("value", .double d)]
  | .file, .path s => some [("value", .text s)]
  | .text, _ | .label, _ | .url, _ | .natural, _ | .number, _ | .double, _ | .file, _ => none
  | _, _ => some []

def Token.report? (t : Token) : Option Json :=
  t.valueFields?.map fun value => .object <|
    [("begin", .natural t.span.first),
     ("col", .natural t.position.col),
     ("end", .natural t.span.last),
     ("kind", .text (.ascii t.kind.name)),
     ("line", .natural t.position.line),
     ("text", .text t.render)] ++ value

namespace Report

/-- The report of some tokens, if all of them have one. -/
def tokens? (ts : List Token) : Option Json :=
  (ts.mapM Token.report?).map fun items => .object [("tokens", .array items)]

def diagnostic (d : Diagnostic) : Json :=
  .object
    [("col", .natural d.position.col),
     ("fragment", .text d.fragment),
     ("kind", .text (.ascii d.kind.name)),
     ("line", .natural d.position.line),
     ("message", .text d.message),
     ("offset", .natural d.offset)]

/-- A list of reports of what is wrong; empty if nothing is. -/
def diagnostics (items : List Json) : Json := .object [("diagnostics", .array items)]

/-- The report of a file that cannot be opened; it has no position. -/
def unreadable (name : Bytes) : Json :=
  .object
    [("col", .natural 0),
     ("line", .natural 0),
     ("message", .text (.ascii "cannot open file: " ++ name))]

end Report

/-- A payload that fits its kind is reported. -/
theorem Token.report?_isSome {t : Token} (h : t.payload.Fits t.kind) : t.report?.isSome := by
  obtain ⟨kind, payload, span, position⟩ := t
  cases payload <;> simp only [Payload.Fits] at h <;> simp only [report?, Option.isSome_map]
  case none => cases kind <;> simp_all [valueFields?]
  case text => rcases h with rfl | rfl | rfl <;> rfl
  case natural => rcases h with rfl | rfl <;> rfl
  case double => subst h; rfl
  case path => subst h; rfl

end Munch
