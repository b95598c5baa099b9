import Munch.Command.Run
import Munch.Proofs.TokenReport
import Munch.Service

/-!
# All front ends agree

A source is read by two calls of the service and by three modes of the command line. All of them
accept the same sources, and where one reports a diagnostic they all report this one.

## Main definitions

* `Service.Call.complete`: a call with nothing missing.
* `Command.Invocation.Lexes`: a command line prints what a mode answers to a source.
* `tokenLines`: a listing of tokens.
* `FrontEndsAgree`: what the front ends answer to one source.
-/
namespace Munch

/-! ## Printed reports of diagnostics -/

namespace Report

theorem quoted_diagnostics : Json.quoted (.ascii "diagnostics") = .ascii "\"diagnostics\"" := by
  rw [Json.quoted, Json.escape_of_plain (by simp [Bytes.ascii])]
  rfl

theorem print_no_diagnostics :
    (diagnostics []).print .compact = .ascii "\x7b\"diagnostics\":[]\x7d" := by
  rw [diagnostics, Json.print, Json.printWith, Json.printAt, Json.printAt, Json.printFields,
    quoted_diagnostics]
  rfl

theorem print_one_diagnostic (item : Json) : (diagnostics [item]).print .compact =
    .ascii "\x7b\"diagnostics\":[" ++ item.print .compact ++ .ascii "]\x7d" := by
  rw [diagnostics, Json.print, Json.printWith, Json.printAt, Json.printAt, Json.printItems,
    Json.printFields, quoted_diagnostics, Json.printAt_compact, Json.print]
  simp only [List.append_assoc]
  rfl

theorem print_diagnostic_ne_nil (d : Diagnostic) : (diagnostic d).print .compact ≠ [] := by
  rw [diagnostic, Json.print, Json.printWith, Json.printAt]
  simp [Bytes.ascii]

/-- A report of a diagnostic is not the empty one. -/
theorem print_one_diagnostic_ne (d : Diagnostic) :
    (diagnostics [diagnostic d]).print .compact ≠ (diagnostics []).print .compact := by
  intro h
  rw [print_one_diagnostic, print_no_diagnostics] at h
  have hsplit : Bytes.ascii "\x7b\"diagnostics\":[]\x7d" =
      Bytes.ascii "\x7b\"diagnostics\":[" ++ [] ++ Bytes.ascii "]\x7d" := rfl
  rw [hsplit] at h
  exact print_diagnostic_ne_nil d (List.append_cancel_left (List.append_cancel_right h))

end Report

/-! ## Readings -/

/-- Every source is read to its end, and then all tokens have a report, or to a diagnostic. -/
theorem Reading.ofSource_cases (source : Bytes) :
    (∃ ts c report, ofSource source = ⟨ts, none, c⟩ ∧
      (Lexer.ofSource source).drain.1 = .ok ts ∧ Report.tokens? ts = some report) ∨
    ∃ ts d c, ofSource source = ⟨ts, some d, c⟩ ∧
      (Lexer.ofSource source).pull (ts.length + 1) = ts.map .ok ++ [.error d] := by
  obtain ⟨ts, last, c, hrun⟩ := (Cursor.ofSource source).exists_run
  have hread := hrun.read_eq
  cases last with
  | ok t =>
    have hdrain := congrArg Prod.fst (hrun.drain_eq (l := .ofSource source) rfl)
    obtain ⟨report, -, hreport, -⟩ :=
      Report.exists_tokens Binary64.readsBack_shortest (Lexer.isSound_of_drain hdrain)
    exact Or.inl ⟨_, c, report, hread, hdrain, hreport⟩
  | error d => exact Or.inr ⟨ts, d, c, hread, hrun.pull_eq (l := .ofSource source) rfl⟩

/-! ## The service -/

namespace Bytes

variable {source : Bytes}

theorem untilZero_append_zero (h : 0 ∉ source) (rest : Bytes) :
    untilZero (source ++ 0 :: rest) = source := by
  have hsource : ∀ b ∈ source, decide (b ≠ 0) = true := by grind
  rw [untilZero, List.takeWhile_append_of_pos hsource]
  simp

theorem untilZero_of_notMem (h : 0 ∉ source) : untilZero source = source := by
  have hsource : ∀ b ∈ source, decide (b ≠ 0) = true := by grind
  exact List.takeWhile_eq_self_iff.2 hsource

end Bytes

namespace Service

/-- A call with a source and with places for both texts. -/
def Call.complete (source : Bytes) : Call := ⟨some source, true, true⟩

theorem source?_complete (source : Bytes) :
    (Call.complete source).source? = some source.untilZero := rfl

variable {source : Bytes} {ts : List Token} {c : Cursor}

theorem accepted {report : Json} (hzero : 0 ∉ source)
    (hreading : Reading.ofSource source = ⟨ts, none, c⟩)
    (hreport : Report.tokens? ts = some report) :
    tokenize (.complete source) = success report ∧
      check (.complete source) = success (Report.diagnostics []) := by
  simp [tokenize, check, source?_complete, Bytes.untilZero_of_notMem hzero, Munch.tokenize,
    hreading, Reading.outcome, hreport]

theorem refused {d : Diagnostic} (hzero : 0 ∉ source)
    (hreading : Reading.ofSource source = ⟨ts, some d, c⟩) :
    tokenize (.complete source) = lexicalError d ∧
      check (.complete source) = success (Report.diagnostics [Report.diagnostic d]) := by
  simp [tokenize, check, source?_complete, Bytes.untilZero_of_notMem hzero, Munch.tokenize,
    hreading, Reading.outcome]

/-- A zero byte ends the source. -/
theorem complete_append_zero (hzero : 0 ∉ source) (rest : Bytes) :
    tokenize (.complete (source ++ 0 :: rest)) = tokenize (.complete source) ∧
      check (.complete (source ++ 0 :: rest)) = check (.complete source) := by
  simp only [tokenize, check, source?_complete, Bytes.untilZero_of_notMem hzero,
    Bytes.untilZero_append_zero hzero, and_self]

end Service

/-! ## The command line -/

/-- A listing: every token on a line of its own. -/
def tokenLines (ts : List Token) : Bytes := ts.flatMap fun t => t.line ++ [Byte.newline]

namespace Command

/-- The command line asks in this mode for this source, which can be read, and for no output
file. -/
def Invocation.Lexes (call : Invocation) (tree : FileTree) (mode : Mode) (source : Bytes) : Prop :=
  ∃ o, call.options = .ok o ∧ o.mode = mode ∧ o.out = [] ∧
    call.input? tree o.input = some source

variable {call : Invocation} {tree : FileTree} {mode : Mode} {source : Bytes} {ts : List Token}
  {c : Cursor}

/-- A command line prints what its options answer to the source, and writes nothing. -/
theorem Invocation.Lexes.exists_answer (h : call.Lexes tree mode source) : ∃ o : Options,
    o.mode = mode ∧ (run call tree).1.status = (o.answer source).status ∧
      (run call tree).1.stdout = (o.answer source).text.getD [] := by
  obtain ⟨o, ho, hmode, hout, hinput⟩ := h
  refine ⟨o, hmode, ?_⟩
  rw [run_of_ok ho, runOptions_of_nothing hinput (Or.inl hout)]
  exact ⟨rfl, rfl⟩

/-- What is printed in a mode for these tokens with this report. -/
def acceptedText (ts : List Token) (report : Json) : Mode → Bytes
  | .tokens => tokenLines ts
  | .json => report.print (.indented 2) ++ [Byte.newline]
  | .check => (Report.diagnostics []).print .compact ++ [Byte.newline]

/-- What is printed in a mode for a diagnostic behind these tokens. -/
def refusedText (ts : List Token) (d : Diagnostic) : Mode → Bytes
  | .tokens => tokenLines ts ++ .ascii "lex error: " ++ d.what ++ [Byte.newline]
  | .json | .check => (Report.diagnostics [Report.diagnostic d]).print .compact ++ [Byte.newline]

/-- A source that is lexed is accepted in every mode. -/
theorem Invocation.Lexes.accepted {report : Json} (h : call.Lexes tree mode source)
    (hreading : Reading.ofSource source = ⟨ts, none, c⟩)
    (hreport : Report.tokens? ts = some report) :
    (run call tree).1.status = 0 ∧ (run call tree).1.stdout = acceptedText ts report mode := by
  obtain ⟨o, rfl, hstatus, hstdout⟩ := h.exists_answer
  rw [hstatus, hstdout, Options.answer]
  cases o.mode with
  | tokens => simp [acceptedText, Options.listing, hreading, tokenLines]
  | json =>
    simp [acceptedText, Options.dump, tokenize, hreading, Reading.outcome, hreport,
      Options.jsonLine]
  | check =>
    simp [acceptedText, Options.verdict, tokenize, hreading, Reading.outcome,
      Options.diagnosticsLine, Options.jsonLine]

/-- A source with a diagnostic is refused in every mode. -/
theorem Invocation.Lexes.refused {d : Diagnostic} (h : call.Lexes tree mode source)
    (hreading : Reading.ofSource source = ⟨ts, some d, c⟩) :
    (run call tree).1.status = 1 ∧ (run call tree).1.stdout = refusedText ts d mode := by
  obtain ⟨o, rfl, hstatus, hstdout⟩ := h.exists_answer
  rw [hstatus, hstdout, Options.answer]
  cases o.mode with
  | tokens => simp [refusedText, Options.listing, hreading, tokenLines]
  | json =>
    simp [refusedText, Options.dump, tokenize, hreading, Reading.outcome,
      Options.diagnosticsLine, Options.jsonLine]
  | check =>
    simp [refusedText, Options.verdict, tokenize, hreading, Reading.outcome,
      Options.diagnosticsLine, Options.jsonLine]

/-- Every source can be asked for in every mode, as the standard input. -/
theorem exists_lexes (mode : Mode) (source : Bytes) (tree : FileTree) :
    ∃ call : Invocation, call.Lexes tree mode source := by
  refine ⟨⟨[mode.name, .ascii "-"], none, source, .ascii "/"⟩,
    ⟨mode, .ascii "-", [], false⟩, ?_, rfl, rfl, rfl⟩
  cases mode <;> rfl

end Command

/-! ## Agreement -/

open Command (run)

/-- What the front ends answer to one source. -/
structure FrontEndsAgree (source : Bytes) : Prop where
  check : ∃ json, Service.check (.complete source) = ⟨0, some json, none⟩
  tokenize : (∃ json, Service.tokenize (.complete source) = ⟨0, some json, none⟩) ∨
    ∃ error, Service.tokenize (.complete source) = ⟨4, none, some error⟩
  check_iff : (Service.tokenize (.complete source)).status = 0 ↔
    (Service.check (.complete source)).json = some (.ascii "\x7b\"diagnostics\":[]\x7d")
  run_iff : (Service.tokenize (.complete source)).status = 0 ↔
    ∀ call tree mode, call.Lexes tree mode source → (run call tree).1.status = 0
  run_status (call tree mode) (h : call.Lexes tree mode source) : (run call tree).1.status =
    if (Service.tokenize (.complete source)).status = 0 then 0 else 1
  /-- The error stands in the reports of the diagnostics. -/
  error_reported (error : Bytes) (h : (Service.tokenize (.complete source)).error = some error) :
    let text := .ascii "\x7b\"diagnostics\":[" ++ error ++ .ascii "]\x7d"
    (Service.check (.complete source)).json = some text ∧
      ∀ call tree mode, mode ≠ .tokens → call.Lexes tree mode source →
        (run call tree).1.stdout = text ++ [Byte.newline]
  /-- The error is about the diagnostic behind the tokens that are listed. -/
  error_listed (error : Bytes) (h : (Service.tokenize (.complete source)).error = some error) :
    ∃ ts d, (Lexer.ofSource source).pull (ts.length + 1) = ts.map .ok ++ [.error d] ∧
      error = (Report.diagnostic d).print .compact ∧
        ∀ call tree, call.Lexes tree .tokens source → (run call tree).1.stdout =
          tokenLines ts ++ .ascii "lex error: " ++ d.what ++ [Byte.newline]
  /-- The tokens in the JSON are those that are listed. -/
  json_listed (json : Bytes) (h : (Service.tokenize (.complete source)).json = some json) :
    ∃ ts report, (Lexer.ofSource source).drain.1 = .ok ts ∧ Report.tokens? ts = some report ∧
      json = report.print .compact ∧
        ∀ call tree, call.Lexes tree .tokens source → (run call tree).1.stdout = tokenLines ts
  zero (rest : Bytes) :
    Service.tokenize (.complete (source ++ 0 :: rest)) = Service.tokenize (.complete source) ∧
      Service.check (.complete (source ++ 0 :: rest)) = Service.check (.complete source)

/-- Runs with the same status in every mode have this status. -/
theorem Command.status_iff {source : Bytes} {status : Nat} (h : ∀ call tree mode,
    Invocation.Lexes call tree mode source → (run call tree).1.status = status) :
    status = 0 ↔ ∀ call tree mode,
      Invocation.Lexes call tree mode source → (run call tree).1.status = 0 := by
  constructor
  · rintro rfl
    exact h
  · intro hzero
    obtain ⟨call, hcall⟩ := exists_lexes .check source .empty
    exact (h call _ _ hcall).symm.trans (hzero call _ _ hcall)

namespace FrontEndsAgree

variable {source : Bytes} {ts : List Token} {c : Cursor}

theorem of_accepted {report : Json} (hzero : 0 ∉ source)
    (hreading : Reading.ofSource source = ⟨ts, none, c⟩)
    (hdrain : (Lexer.ofSource source).drain.1 = .ok ts)
    (hreport : Report.tokens? ts = some report) : FrontEndsAgree source := by
  obtain ⟨htokenize, hcheck⟩ := Service.accepted hzero hreading hreport
  have hstatus : ∀ call tree mode, Command.Invocation.Lexes call tree mode source →
      (run call tree).1.status = 0 := fun _ _ _ h => (h.accepted hreading hreport).1
  constructor
  case check => exact ⟨_, hcheck⟩
  case tokenize => exact Or.inl ⟨_, htokenize⟩
  case check_iff =>
    rw [htokenize, hcheck, ← Report.print_no_diagnostics]
    exact iff_of_true rfl rfl
  case run_iff =>
    rw [htokenize]
    exact Command.status_iff hstatus
  case run_status =>
    rw [htokenize]
    exact hstatus
  case error_reported | error_listed =>
    intro error h
    rw [htokenize] at h
    cases h
  case json_listed =>
    intro json h
    rw [htokenize] at h
    obtain rfl := Option.some.inj h
    exact ⟨ts, report, hdrain, hreport, rfl, fun _ _ h => (h.accepted hreading hreport).2⟩
  case zero => exact Service.complete_append_zero hzero

theorem of_refused {d : Diagnostic} (hzero : 0 ∉ source)
    (hreading : Reading.ofSource source = ⟨ts, some d, c⟩)
    (hpull : (Lexer.ofSource source).pull (ts.length + 1) = ts.map .ok ++ [.error d]) :
    FrontEndsAgree source := by
  obtain ⟨htokenize, hcheck⟩ := Service.refused hzero hreading
  have hstatus : ∀ call tree mode, Command.Invocation.Lexes call tree mode source →
      (run call tree).1.status = 1 := fun _ _ _ h => (h.refused hreading).1
  constructor
  case check => exact ⟨_, hcheck⟩
  case tokenize => exact Or.inr ⟨_, htokenize⟩
  case check_iff =>
    rw [htokenize, hcheck, ← Report.print_no_diagnostics]
    exact iff_of_false (Nat.succ_ne_zero 3) fun h =>
      Report.print_one_diagnostic_ne d (Option.some.inj h)
  case run_iff =>
    rw [htokenize, ← Command.status_iff hstatus]
    exact iff_of_false (Nat.succ_ne_zero 3) (by decide)
  case run_status =>
    rw [htokenize]
    exact hstatus
  case error_reported =>
    intro error h
    rw [htokenize] at h
    obtain rfl := Option.some.inj h
    rw [← Report.print_one_diagnostic, hcheck]
    refine ⟨rfl, fun call tree mode hmode h => ?_⟩
    rw [(h.refused hreading).2]
    cases mode with
    | tokens => exact absurd rfl hmode
    | json | check => rfl
  case error_listed =>
    intro error h
    rw [htokenize] at h
    obtain rfl := Option.some.inj h
    exact ⟨ts, d, hpull, rfl, fun _ _ h => (h.refused hreading).2⟩
  case json_listed =>
    intro json h
    rw [htokenize] at h
    cases h
  case zero => exact Service.complete_append_zero hzero

end FrontEndsAgree

/-- All front ends agree on a source without a zero byte. -/
theorem frontEndsAgree_of_notMem {source : Bytes} (hzero : 0 ∉ source) : FrontEndsAgree source := by
  rcases Reading.ofSource_cases source with
    ⟨ts, c, report, hreading, hdrain, hreport⟩ | ⟨ts, d, c, hreading, hpull⟩
  · exact .of_accepted hzero hreading hdrain hreport
  · exact .of_refused hzero hreading hpull

/-- A source with a diagnostic behind its first token. -/
theorem frontEndsAgree_unmatched :
    let source := Bytes.ascii "1 #"
    0 ∉ source ∧ FrontEndsAgree source :=
  ⟨by decide, frontEndsAgree_of_notMem (by decide)⟩

end Munch
