import Munch.Proofs.JsonText
import Munch.Proofs.ReadValue
import Munch.Report

/-!
# Token reports are faithful

The JSON report of the tokens of a source can be read back: it denotes an object that has one entry
for each token, and the token is recovered from its entry. A number in the report stands for a
number as it does in a source.

## Main definitions

* `Kind.ofName?`: the kind with a name.
* `Json.Value.field?`: what an object has under a key.
* `Token.ofReport?`: the token that an entry of a report is about.
-/
namespace Munch

open Utf8 (WellFormed)

/-! ## Recovering tokens -/

/-- The kind with this name. -/
def Kind.ofName? (name : Bytes) : Option Kind := all.find? fun kind => .ascii kind.name == name

namespace Json.Value

/-- What an object has under a key. -/
def field? (key : String) : Value → Option Value
  | object fields => fields.lookup (.ascii key)
  | _ => none

def text? : Value → Option Bytes
  | text s => some s
  | _ => none

/-- The natural number that is written with digits alone. -/
def natural? : Value → Option Nat
  | number lexeme => if lexeme.all Byte.isDigit then some (Bytes.ofDecimal lexeme) else none
  | _ => none

/-- The nearest double to the number that is written. -/
def double? : Value → Option Binary64
  | number lexeme => (Literal.Double.read lexeme).toOption
  | _ => none

end Json.Value

namespace Token

/-- The value of a token of this kind, from what its entry has for it. -/
def payloadOfReport? (kind : Kind) (value : Option Json.Value) : Option Payload :=
  match kind with
  | .text | .label | .url => (value.bind Json.Value.text?).map .text
  | .natural | .number => ((value.bind Json.Value.text?).bind LimbNat.parse?).map .natural
  | .double => (value.bind Json.Value.double?).map .double
  | .file => (value.bind Json.Value.text?).map .path
  | _ => some .none

/-- The token that an entry of a report is about. -/
def ofReport? (entry : Json.Value) : Option Token := do
  let kind ← ((entry.field? "kind").bind Json.Value.text?).bind Kind.ofName?
  let payload ← payloadOfReport? kind (entry.field? "value")
  let first ← (entry.field? "begin").bind Json.Value.natural?
  let last ← (entry.field? "end").bind Json.Value.natural?
  let line ← (entry.field? "line").bind Json.Value.natural?
  let col ← (entry.field? "col").bind Json.Value.natural?
  return ⟨kind, payload, ⟨first, last⟩, ⟨line, col⟩⟩

end Token

theorem Token.ofReport?_eq {t : Token} {entry : Json.Value}
    (hkind : ((entry.field? "kind").bind Json.Value.text?).bind Kind.ofName? = some t.kind)
    (hpayload : payloadOfReport? t.kind (entry.field? "value") = some t.payload)
    (hfirst : (entry.field? "begin").bind Json.Value.natural? = some t.span.first)
    (hlast : (entry.field? "end").bind Json.Value.natural? = some t.span.last)
    (hline : (entry.field? "line").bind Json.Value.natural? = some t.position.line)
    (hcol : (entry.field? "col").bind Json.Value.natural? = some t.position.col) :
    ofReport? entry = some t := by
  simp [ofReport?, hkind, hpayload, hfirst, hlast, hline, hcol]

theorem Kind.ofName?_name {kind : Kind} (h : kind ≠ .unknown) :
    ofName? (.ascii kind.name) = some kind := by
  cases kind with
  | unknown => exact absurd rfl h
  | _ => rfl

theorem Kind.wellFormed_name (kind : Kind) : WellFormed (.ascii kind.name) := by
  apply Utf8.wellFormed_of_ascii
  cases kind <;> decide

theorem Json.Value.natural?_decimal (n : Nat) :
    natural? (.number (Bytes.decimal n)) = some n := by
  rw [natural?, if_pos (List.all_eq_true.2 (Bytes.isDigits_decimal n)), Bytes.ofDecimal_decimal]

/-! ## Values -/

namespace Binary64

variable {m : Nat}

/-- The digits that are written for a magnitude are read as this magnitude. -/
def ReadsBack (digits : Nat → Decimal) : Prop :=
  ∀ m < infinity, ofDecimal? (digits m).digits (digits m).exponent = some (ofMagnitude m)

theorem readsBack_shortest : ReadsBack shortest := fun _ hm => (isShortest_shortest hm).read_eq

variable {digits : Nat → Decimal}

/-- A finite number without sign is read back from what is printed for it. -/
theorem ReadsBack.double?_finiteText (hdigits : ReadsBack digits) (hm : m < infinity) :
    Json.Value.double? (.number ((ofMagnitude m).finiteText digits .json)) =
      some (ofMagnitude m) := by
  have hrounds := roundsTo_of_ofDecimal? hm (hdigits m hm)
  have htext : (ofMagnitude m).finiteText digits .json = DecimalStyle.json.decimal (digits m) := by
    simp [finiteText, sign, isNegative_ofMagnitude hm, magnitude_ofMagnitude hm]
  rw [htext, Json.Value.double?,
    (Literal.Double.read_decimal hm hrounds DecimalStyle.isPointed_json).1]
  rfl

end Binary64

namespace Token.IsSound

variable {t : Token} {digits : Nat → Decimal}

/-- The value has a field if the kind asks for one, and is recovered from it. -/
theorem exists_valueFields (hdigits : Binary64.ReadsBack digits) (h : t.IsSound) :
    ∃ fields, t.valueFields? = some fields ∧
      (∀ f ∈ fields, WellFormed (.ascii f.1) ∧ f.2.IsSound) ∧
        payloadOfReport? t.kind ((Json.fieldValues digits fields).lookup (.ascii "value")) =
          some t.payload := by
  obtain ⟨kind, payload, span, position⟩ := t
  obtain ⟨hfits, hnormal, -⟩ := h
  have hkey : WellFormed (.ascii "value") := Utf8.wellFormed_of_ascii (by decide)
  cases payload with
  | none =>
    cases kind with
    | text | natural | double | number | label | file | url => simp [Payload.Fits] at hfits
    | _ => exact ⟨[], rfl, by simp, rfl⟩
  | text s =>
    refine ⟨[("value", .text s)], ?_, by simpa using ⟨hkey, .text hnormal⟩, ?_⟩ <;>
      rcases hfits with rfl | rfl | rfl <;> rfl
  | natural n =>
    have hdecimal := LimbNat.wellFormed_decimal hnormal
    refine ⟨[("value", .text n.decimal)], ?_, by simpa using ⟨hkey, .text hdecimal⟩, ?_⟩
    · rcases hfits with rfl | rfl <;> rfl
    · have hparse : (LimbNat.parse? n.decimal).map Payload.natural = some (.natural n) := by
        rw [LimbNat.parse?_decimal hnormal]
        rfl
      rcases hfits with rfl | rfl <;> exact hparse
  | double d =>
    obtain rfl := hfits
    obtain ⟨m, hm, rfl⟩ := hnormal
    have hdouble := Binary64.isFinite_ofMagnitude hm
    refine ⟨[("value", .double _)], rfl, by simpa using ⟨hkey, .double hdouble⟩, ?_⟩
    exact congrArg (Option.map Payload.double) (hdigits.double?_finiteText hm)
  | path s =>
    obtain rfl := hfits
    exact ⟨[("value", .text s)], rfl, by simpa using ⟨hkey, .text hnormal⟩, rfl⟩

/-- A token that is read has a report, all texts of which are well-formed, and is recovered from
it. -/
theorem exists_report (hdigits : Binary64.ReadsBack digits) (h : t.IsSound) :
    ∃ report, t.report? = some report ∧ report.IsSound ∧
      ofReport? (report.value digits) = some t ∧
        (report.value digits).field? "text" = some (.text t.render) := by
  obtain ⟨fields, hfields, hsound, hpayload⟩ := h.exists_valueFields hdigits
  rw [report?, hfields, Option.map_some]
  refine ⟨_, rfl, ?_, ?_, rfl⟩
  · have hkey {key : String} (h : (Bytes.ascii key).all (fun b => b < 0x80) = true) :
        WellFormed (.ascii key) := Utf8.wellFormed_of_ascii h
    refine .object ?_ ?_
    · simp only [List.cons_append, List.nil_append, List.forall_mem_cons]
      exact ⟨hkey (by decide), hkey (by decide), hkey (by decide), hkey (by decide),
        hkey (by decide), hkey (by decide), fun f hf => (hsound f hf).1⟩
    · simp only [List.cons_append, List.nil_append, List.forall_mem_cons]
      exact ⟨.natural _, .natural _, .natural _, .text t.kind.wellFormed_name, .natural _,
        .text h.wellFormed_render, fun f hf => (hsound f hf).2⟩
  · exact ofReport?_eq (Kind.ofName?_name h.kind_ne) hpayload (Json.Value.natural?_decimal _)
      (Json.Value.natural?_decimal _) (Json.Value.natural?_decimal _)
      (Json.Value.natural?_decimal _)

end Token.IsSound

/-! ## Whole reports -/

section Reports

variable {digits : Nat → Decimal} (hdigits : Binary64.ReadsBack digits)
include hdigits

/-- A report of sound tokens denotes an object with one entry for each token. -/
theorem Report.exists_tokens {ts : List Token} (h : ∀ t ∈ ts, t.IsSound) : ∃ report entries,
    tokens? ts = some report ∧ report.IsSound ∧
      report.value digits = .object [(.ascii "tokens", .array entries)] ∧
        entries.map Token.ofReport? = ts.map some ∧
          entries.map (Json.Value.field? "text") = ts.map fun t => some (.text t.render) := by
  obtain ⟨items, hitems, hsound, hrecovered, htext⟩ : ∃ items,
      ts.mapM Token.report? = some items ∧ (∀ item ∈ items, item.IsSound) ∧
        (Json.itemValues digits items).map Token.ofReport? = ts.map some ∧
          (Json.itemValues digits items).map (Json.Value.field? "text") =
            ts.map fun t => some (.text t.render) := by
    induction ts with
    | nil => exact ⟨[], rfl, by simp, rfl, rfl⟩
    | cons t ts ih =>
      obtain ⟨ht, hts⟩ := List.forall_mem_cons.1 h
      obtain ⟨item, hreport, hitem, hrecovered, htext⟩ := ht.exists_report hdigits
      obtain ⟨items, hreports, hitems, hrecovereds, htexts⟩ := ih hts
      refine ⟨item :: items, ?_, List.forall_mem_cons.2 ⟨hitem, hitems⟩, ?_, ?_⟩
      · simp [hreport, hreports]
      · simp [Json.itemValues, hrecovered, hrecovereds]
      · simp [Json.itemValues, htext, htexts]
  refine ⟨.object [("tokens", .array items)], Json.itemValues digits items, ?_, ?_, rfl,
    hrecovered, htext⟩
  · rw [tokens?, hitems, Option.map_some]
  · have hkey : WellFormed (.ascii "tokens") := Utf8.wellFormed_of_ascii (by decide)
    exact .object (by simpa using hkey) (by simpa using .array hsound)

/-- The JSON report of a source is faithful. If the source is lexed, every token holds a value of
the form its kind asks for, so that it has a report; every text in the report is well-formed; and
however the report is laid out, and with whatever digits that are read back, it denotes one object,
from the entries of which the tokens and their texts are recovered. -/
theorem Lexer.drain_report {source : Bytes} {ts : List Token}
    (h : (ofSource source).drain.1 = .ok ts) :
    (∀ t ∈ ts, t.payload.Fits t.kind ∧ t.report?.isSome ∧ Utf8.IsText t.render ∧
      ∀ s, t.payload = .text s ∨ t.payload = .path s → Utf8.IsText s) ∧
    ∃ report entries, Report.tokens? ts = some report ∧ report.IsSound ∧
      (∀ indent v, Json.Denotes (report.printWith digits (.ofIndent indent)) v ↔
        v = .object [(.ascii "tokens", .array entries)]) ∧
      entries.map Token.ofReport? = ts.map some ∧
      entries.map (Json.Value.field? "text") = ts.map fun t => some (.text t.render) := by
  have hsound := isSound_of_drain h
  constructor
  · intro t ht
    have hnormal := (hsound t ht).isNormal
    refine ⟨(hsound t ht).fits, Token.report?_isSome (hsound t ht).fits,
      Utf8.isText_iff_wellFormed.2 (hsound t ht).wellFormed_render, fun s hs => ?_⟩
    rw [Utf8.isText_iff_wellFormed]
    rcases hs with hs | hs <;> rwa [hs] at hnormal
  · obtain ⟨report, entries, hreport, hreport_sound, hvalue, hrecovered, htext⟩ :=
      Report.exists_tokens hdigits hsound
    refine ⟨report, entries, hreport, hreport_sound, fun indent v => ?_, hrecovered, htext⟩
    have hdenotes := hreport_sound.denotes digits (.ofIndent indent)
    rw [hvalue] at hdenotes
    constructor
    · exact fun hv => hv.unique hdenotes
    · rintro rfl
      exact hdenotes

end Reports

/-- A double that is written with sixteen digits where one would do, but is read back. -/
theorem Lexer.drain_report_long :
    let source := Bytes.ascii "1e23"
    let d : Binary64 := ⟨0x44B52D02C7E14AF6⟩
    let digits : Nat → Decimal := fun m =>
      if m = d.magnitude then ⟨9999999999999999, 7⟩ else Binary64.shortest m
    let ts : List Token := [⟨.double, .double d, ⟨0, 4⟩, ⟨1, 1⟩⟩, ⟨.eof, .none, ⟨4, 4⟩, ⟨1, 5⟩⟩]
    Binary64.ReadsBack digits ∧ (ofSource source).drain.1 = .ok ts ∧
    (∀ t ∈ ts, t.payload.Fits t.kind ∧ t.report?.isSome ∧ Utf8.IsText t.render ∧
      ∀ s, t.payload = .text s ∨ t.payload = .path s → Utf8.IsText s) ∧
    ∃ report entries, Report.tokens? ts = some report ∧ report.IsSound ∧
      (∀ indent v, Json.Denotes (report.printWith digits (.ofIndent indent)) v ↔
        v = .object [(.ascii "tokens", .array entries)]) ∧
      entries.map Token.ofReport? = ts.map some ∧
      entries.map (Json.Value.field? "text") = ts.map fun t => some (.text t.render) := by
  intro source d digits ts
  have hdigits : Binary64.ReadsBack digits := by
    intro m hm
    by_cases h : m = d.magnitude
    · subst h
      decide +kernel
    · simpa [digits, h] using Binary64.readsBack_shortest m hm
  have hread : Literal.read .double source = .ok (.double d) := by decide +kernel
  have hlongest : longest? source = some ⟨.literal .double, 4⟩ := by decide +kernel
  have happlies : Applies (.literal .double) source source := (applies_of_longest? hlongest).1
  have hdrain : (ofSource source).drain.1 = .ok ts := drain_of_applies happlies (.literal hread)
  exact ⟨hdigits, hdrain, drain_report hdigits hdrain⟩

end Munch
