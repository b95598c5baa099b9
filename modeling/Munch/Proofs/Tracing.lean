import Mathlib.Algebra.Order.BigOperators.Group.List
import Munch.Proofs.ArgumentOrder
import Munch.Proofs.Listing

/-!
# The log of a run

The log is asked for by an argument or from outside. Its lines stand on the error stream in between
what a run reports there, and nothing else tells whether it was asked for. A line of the log begins
with its mark. Only the name of the input and the path of the output can have line feeds in them,
and then the line of the log goes on behind these.

## Main definitions

* `Message`: what is printed on the error stream at once.
* `Options.Shows`: what a line of the log shows of the arguments.
* `Options.Prints`: an error stream depends on the wish for a log only by the lines of the log.
* `Invocation.IsLogLine`: a line of an error stream belongs to the log.
* `SameButLog`: two runs differ only in lines of the log.
-/
namespace Munch.Command

open Byte (newline)

/-! ## Messages -/

/-- What is printed on the error stream at once: a line of the log or a report. -/
inductive Message
  | log (text : Bytes)
  | report (text : Bytes)

/-- A line of the log with its mark in front. -/
def logLine (text : Bytes) : Bytes := .ascii "[cli] " ++ text ++ [newline]

namespace Message

def print (verbose : Bool) : Message → Bytes
  | log text => if verbose then logLine text else []
  | report text => text ++ [newline]

def printAll (verbose : Bool) (ms : List Message) : Bytes := ms.flatMap (print verbose)

variable {v v' : Bool} {m : Message} {ms : List Message} {x : Bytes}

/-- A message is ended, if it is printed. -/
theorem print_cases (v : Bool) (m : Message) :
    m.print v = [] ∨ ∃ s, m.print v = s ++ [newline] := by
  cases m with
  | report text => exact Or.inr ⟨text, rfl⟩
  | log text =>
    cases v with
    | false => exact Or.inl rfl
    | true => exact Or.inr ⟨_, rfl⟩

/-- The lines of all messages are those of each of them. -/
theorem lines_printAll (v : Bool) (ms : List Message) :
    (printAll v ms).lines = ms.flatMap fun m => (m.print v).lines := by
  have hlines := Bytes.lines_flatMap_append (print_cases v) ms []
  rwa [List.append_nil, Bytes.lines, List.append_nil] at hlines

/-- The lines of a message that is printed stand together. -/
theorem infix_printAll_of_mem (h : m ∈ ms) : (m.print v).lines <:+: (printAll v ms).lines := by
  rw [lines_printAll, List.flatMap_def]
  exact List.infix_of_mem_flatten (List.mem_map_of_mem h)

/-- A line that is printed more often with the log or without it belongs to the log. -/
theorem exists_log_of_count_lt
    (h : (printAll v ms).lines.count x < (printAll v' ms).lines.count x) :
    ∃ text, log text ∈ ms ∧ x ∈ (logLine text).lines ∧
      (logLine text).lines <:+: (printAll v' ms).lines := by
  -- The counts are sums over the messages, so one message has the line more often.
  rw [lines_printAll, lines_printAll, List.count_flatMap, List.count_flatMap] at h
  obtain ⟨m, hm, hlt⟩ := List.exists_lt_of_sum_lt _ _ h
  simp only [Function.comp_apply] at hlt
  cases m with
  | report text => exact absurd hlt (Nat.lt_irrefl _)
  | log text =>
    have hmem : x ∈ ((log text).print v').lines := List.count_pos_iff.1 (Nat.zero_lt_of_lt hlt)
    have hpart := infix_printAll_of_mem (v := v') hm
    cases v' with
    | false => cases hmem
    | true => exact ⟨text, hm, hmem, hpart⟩

end Message

/-! ## Lines of the log -/

namespace Options

/-- The options with the log switched on or off. -/
def withLog (o : Options) (verbose : Bool) : Options := { o with verbose }

/-- What a line of the log shows of the arguments, behind a label. -/
inductive Shows (o : Options) (directory : Bytes) : Bytes → Bytes → Prop
  | input : Shows o directory (.ascii "input: ") o.input
  | target (h : o.out ≠ []) :
      Shows o directory (.ascii "writing output to: ") (absolutePath directory o.out)

/-- A line of the log has no line feed in it, or it shows an argument. -/
def Notes (o : Options) (directory text : Bytes) : Prop :=
  newline ∉ text ∨ ∃ label argument, o.Shows directory label argument ∧ text = label ++ argument

/-- The error stream consists of messages, whether the lines of the log are printed or not. -/
def Prints (o : Options) (directory : Bytes) (stderr : Bool → Bytes) : Prop :=
  ∃ ms, (∀ text, Message.log text ∈ ms → o.Notes directory text) ∧
    ∀ v, stderr v = Message.printAll v ms

variable {o : Options} {directory label argument text : Bytes} {stderr stderr' : Bool → Bytes}

theorem Shows.newline_notMem (h : o.Shows directory label argument) : newline ∉ label := by
  cases h <;> decide

theorem prints_nil : o.Prints directory fun _ => [] :=
  ⟨[], by simp, fun _ => rfl⟩

theorem Prints.append (h : o.Prints directory stderr) (h' : o.Prints directory stderr') :
    o.Prints directory fun v => stderr v ++ stderr' v := by
  obtain ⟨ms, hms, hstderr⟩ := h
  obtain ⟨ms', hms', hstderr'⟩ := h'
  refine ⟨ms ++ ms', fun text hmem => ?_, fun v => ?_⟩
  · exact (List.mem_append.1 hmem).elim (hms text) (hms' text)
  · simp only [hstderr, hstderr', Message.printAll, List.flatMap_append]

theorem prints_report (text : Bytes) : o.Prints directory fun _ => text ++ [newline] :=
  ⟨[.report text], by simp, fun _ => by simp [Message.printAll, Message.print]⟩

theorem prints_note (h : o.Notes directory text) :
    o.Prints directory fun v => (o.withLog v).note text := by
  refine ⟨[.log text], by simpa using h, fun v => ?_⟩
  simp [Message.printAll, Message.print, note, withLog, logLine]

theorem Shows.notes (h : o.Shows directory label argument) :
    o.Notes directory (label ++ argument) :=
  Or.inr ⟨label, argument, h, rfl⟩

theorem notes_count (front back : String) (n : Nat) (hfront : newline ∉ Bytes.ascii front)
    (hback : newline ∉ Bytes.ascii back) :
    o.Notes directory (.ascii front ++ Bytes.decimal n ++ .ascii back) := by
  have hnumber : newline ∉ Bytes.decimal n := Bytes.notMem_decimal rfl n
  left
  simp [hfront, hnumber, hback]

theorem prints_noteTokens (ts : List Token) :
    o.Prints directory fun v => (o.withLog v).noteTokens ts := by
  induction ts with
  | nil => exact prints_nil
  | cons t ts ih =>
    have hline : newline ∉ Bytes.decimal t.position.line := Bytes.notMem_decimal rfl _
    have hcol : newline ∉ Bytes.decimal t.position.col := Bytes.notMem_decimal rfl _
    have hconstants : newline ∉ Bytes.ascii "token " ∧ newline ∉ Bytes.ascii " at " ∧
        newline ∉ Bytes.ascii ":" := by decide
    have hnote : o.Notes directory (.ascii "token " ++ .ascii t.kind.name ++ .ascii " at " ++
        Bytes.decimal t.position.line ++ .ascii ":" ++ Bytes.decimal t.position.col) := by
      left
      simp [hconstants, t.kind.notMem_name.2, hline, hcol]
    exact (prints_note hnote).append ih

end Options

/-! ## Drafts and runs -/

/-- A draft says the same with the log and without it, except for the lines of the log. -/
def Draft.SameButLog (o : Options) (directory : Bytes) (d : Bool → Draft) : Prop :=
  ∃ status text stderr, o.Prints directory stderr ∧ ∀ v, d v = ⟨status, text, stderr v⟩

theorem runOptions_of_draft {call : Invocation} {tree : FileTree} {o : Options} {d : Draft}
    (h : o.draft (call.input? tree o.input) = d) : runOptions call tree o =
      match d.errand? (o.target? call.directory) with
      | none => (d.finish o none, tree)
      | some (target, text) =>
        (d.finish o (some ⟨target, (tree.replace target text).1⟩),
          (tree.replace target text).2) := by
  subst h
  exact runOptions_eq call tree o

namespace Options

theorem sameButLog_listing (o : Options) (directory source : Bytes) :
    Draft.SameButLog o directory fun v => (o.withLog v).listing source := by
  rcases hread : Reading.ofSource source with ⟨ts, _ | d, c⟩
  · exact ⟨0, some (tokenLines ts), _, prints_noteTokens ts,
      fun v => by simp only [listing, hread, tokenLines]⟩
  · exact ⟨1, some (tokenLines ts ++ .ascii "lex error: " ++ d.what ++ [newline]), _,
      prints_noteTokens ts, fun v => by simp only [listing, hread, tokenLines]⟩

theorem sameButLog_dump (o : Options) (directory source : Bytes) :
    Draft.SameButLog o directory fun v => (o.withLog v).dump source := by
  cases hread : tokenize source with
  | error d =>
    exact ⟨1, some (diagnosticsLine [Report.diagnostic d]), _, prints_nil,
      fun v => by simp only [dump, hread]⟩
  | ok ts =>
    have hcount : o.Notes directory
        (.ascii "lexed " ++ Bytes.decimal ts.length ++ .ascii " tokens") :=
      notes_count _ _ _ (by decide) (by decide)
    have hlog := (prints_noteTokens ts).append (prints_note hcount)
    cases hreport : Report.tokens? ts with
    | none => exact ⟨aborted, none, _, hlog, fun v => by simp only [dump, hread, hreport]⟩
    | some report =>
      exact ⟨0, some (jsonLine (.indented 2) report), _, hlog,
        fun v => by simp only [dump, hread, hreport]⟩

theorem sameButLog_verdict (o : Options) (directory source : Bytes) :
    Draft.SameButLog o directory fun v => (o.withLog v).verdict source := by
  cases hread : tokenize source with
  | error d =>
    exact ⟨1, some (diagnosticsLine [Report.diagnostic d]), _, prints_nil,
      fun v => by simp only [verdict, hread]⟩
  | ok ts =>
    have hcount : o.Notes directory
        (.ascii "check ok: " ++ Bytes.decimal ts.length ++ .ascii " tokens") :=
      notes_count _ _ _ (by decide) (by decide)
    have hlog := (prints_noteTokens ts).append (prints_note hcount)
    exact ⟨0, some (diagnosticsLine []), _, hlog, fun v => by simp only [verdict, hread]⟩

theorem sameButLog_answer (o : Options) (directory source : Bytes) :
    Draft.SameButLog o directory fun v => (o.withLog v).answer source := by
  obtain ⟨mode, input, out, verbose⟩ := o
  cases mode with
  | tokens => exact sameButLog_listing _ directory source
  | json => exact sameButLog_dump _ directory source
  | check => exact sameButLog_verdict _ directory source

theorem sameButLog_refusal (o : Options) (directory : Bytes) :
    Draft.SameButLog o directory fun v => (o.withLog v).refusal := by
  by_cases hcheck : o.mode = .check
  · exact ⟨1, some (diagnosticsLine [Report.unreadable o.input]), _, prints_nil,
      fun _ => if_pos hcheck⟩
  · exact ⟨1, none, _, prints_report (Bytes.ascii "cannot open file: " ++ o.input),
      fun _ => if_neg hcheck⟩

theorem prints_opening (o : Options) (directory : Bytes) :
    o.Prints directory fun v => (o.withLog v).opening := by
  have hmode : o.Notes directory (.ascii "mode:  " ++ o.mode.name) := by
    left
    cases o.mode <;> decide
  exact (prints_note hmode).append (prints_note Shows.input.notes)

/-- The draft of an input says the same with the log and without it. -/
theorem sameButLog_draft (o : Options) (directory : Bytes) (source : Option Bytes) :
    Draft.SameButLog o directory fun v => (o.withLog v).draft source := by
  have hopening := o.prints_opening directory
  cases source with
  | none =>
    obtain ⟨status, text, stderr, hlog, hrefusal⟩ := o.sameButLog_refusal directory
    exact ⟨status, text, _, hopening.append hlog, fun v => by simp only [draft, hrefusal]⟩
  | some source =>
    obtain ⟨status, text, stderr, hlog, hanswer⟩ := o.sameButLog_answer directory source
    have hsize : o.Notes directory
        (.ascii "read " ++ Bytes.decimal source.length ++ .ascii " bytes") :=
      notes_count _ _ _ (by decide) (by decide)
    exact ⟨status, text, _, (hopening.append (prints_note hsize)).append hlog,
      fun v => by simp only [draft, hanswer]⟩

/-- The target of a text that is written is the path of the output. -/
theorem shows_of_errand {d : Draft} {o : Options} {directory target text : Bytes}
    (h : d.errand? (o.target? directory) = some (target, text)) :
    o.Shows directory (.ascii "writing output to: ") target := by
  obtain ⟨path, hpath, htext⟩ := Option.bind_eq_some_iff.1 h
  obtain ⟨_, -, heq⟩ := Option.map_eq_some_iff.1 htext
  obtain ⟨rfl, -⟩ := Prod.mk.inj heq
  rw [target?] at hpath
  split at hpath
  · cases hpath
  · cases hpath
    exact .target ‹_›

/-- A run says the same and leaves the same files with the log and without it. -/
theorem exists_runOptions_withLog (call : Invocation) (tree : FileTree) (o : Options) :
    ∃ status stdout stderr after, o.Prints call.directory stderr ∧
      ∀ v, runOptions call tree (o.withLog v) = (⟨status, stdout, stderr v⟩, after) := by
  obtain ⟨status, text, stderr, hlog, hdraft⟩ :=
    o.sameButLog_draft call.directory (call.input? tree o.input)
  have hrun v := runOptions_of_draft (o := o.withLog v) (hdraft v)
  -- The log does not matter for what is to be written and where.
  have herrand v : Draft.errand? ⟨status, text, stderr v⟩ ((o.withLog v).target? call.directory) =
      Draft.errand? ⟨status, text, []⟩ (o.target? call.directory) := rfl
  cases hwrite : Draft.errand? ⟨status, text, []⟩ (o.target? call.directory) with
  | none =>
    refine ⟨status, text.getD [], stderr, tree, hlog, fun v => ?_⟩
    rw [hrun, herrand, hwrite]
    rfl
  | some errand =>
    obtain ⟨target, content⟩ := errand
    have hnote := hlog.append (prints_note (shows_of_errand hwrite).notes)
    rcases hreplace : tree.replace target content with ⟨_ | fault, after⟩
    · refine ⟨status, text.getD [], _, after, hnote, fun v => ?_⟩
      simp only [hrun, herrand, hwrite, hreplace]
      rfl
    · have hreport := hnote.append
        (prints_report (Bytes.ascii "write output failed: " ++ fault.message target))
      refine ⟨1, text.getD [], _, after, hreport, fun v => ?_⟩
      simp only [hrun, herrand, hwrite, hreplace, Draft.finish, List.append_assoc]

end Options

/-! ## Asking for the log -/

namespace Options

variable {mode : Mode} {items items' : List Item}

theorem ofItems?_traced (mode : Mode) (traced : Bool) (items : List Item) :
    ofItems? mode traced items =
      (ofItems? mode false items).map fun o => o.withLog (traced || o.verbose) := by
  simp [ofItems?, withLog, Function.comp_def]

theorem ofMode_traced (mode : Mode) (traced : Bool) (arguments : List Bytes) :
    ofMode mode traced arguments =
      (ofMode mode false arguments).map fun o => o.withLog (traced || o.verbose) := by
  unfold ofMode
  cases Item.ofArguments arguments with
  | error argument => rfl
  | ok items =>
    simp only [ofItems?_traced mode traced]
    cases ofItems? mode false items <;> rfl

/-- Asking for the log from outside changes nothing but that. -/
theorem ofArguments_traced (traced : Bool) (arguments : List Bytes) :
    ofArguments traced arguments =
      (ofArguments false arguments).map fun o => o.withLog (traced || o.verbose) := by
  cases arguments with
  | nil => rfl
  | cons first rest =>
    simp only [ofArguments]
    cases Mode.ofName? first with
    | none => split_ifs <;> rfl
    | some mode =>
      split_ifs
      · rfl
      · rfl
      · rfl
      · exact ofMode_traced mode traced rest

theorem ofMode_eq_ok_iff {traced : Bool} {arguments : List Bytes} {o : Options} :
    ofMode mode traced arguments = .ok o ↔
      ∃ items, Item.WriteAll items arguments ∧ ofItems? mode traced items = some o := by
  constructor
  · intro h
    rw [ofMode] at h
    split at h
    · cases h
    · rename_i items hread
      split at h
      · cases h
      · rename_i o' ho
        cases h
        exact ⟨items, Item.ofArguments_eq_ok_iff.1 hread, ho⟩
  · rintro ⟨items, hitems, ho⟩
    simp only [ofMode, Item.ofArguments_eq_ok_iff.2 hitems, ho]

/-- One more wish for the log among the items switches it on. -/
theorem ofItems?_verbose {traced : Bool} {o : Options}
    (h : ofItems? mode traced (items ++ items') = some o) :
    ofItems? mode traced (items ++ .verbose :: items') = some (o.withLog true) := by
  obtain ⟨input, hinput, rfl⟩ := Option.map_eq_some_iff.1 h
  have hinputs : (items ++ .verbose :: items').filterMap Item.inputName? =
      (items ++ items').filterMap Item.inputName? := by
    rw [List.filterMap_append, List.filterMap_cons_none rfl, ← List.filterMap_append]
  have hpaths : (items ++ .verbose :: items').filterMap Item.path? =
      (items ++ items').filterMap Item.path? := by
    rw [List.filterMap_append, List.filterMap_cons_none rfl, ← List.filterMap_append]
  rw [ofItems?, hinputs, hpaths, hinput]
  simp [withLog]

end Options

namespace Item

/-- The last argument is an `--out` that takes the next one as its path. -/
def AwaitsPath (arguments : List Bytes) : Prop :=
  ∃ items units, WriteAll items units ∧ arguments = units ++ [.ascii "--out"]

/-- What begins no unit begins none with more arguments behind it, unless it awaits a path. -/
theorem NoUnit.append {arguments : List Bytes} (h : NoUnit arguments)
    (hout : arguments ≠ [.ascii "--out"]) (back : List Bytes) : NoUnit (arguments ++ back) := by
  cases h with
  | empty rest => exact .empty (rest ++ back)
  | lastOut => exact absurd rfl hout
  | dashed h hne hattached => exact .dashed h hne hattached

/-- Arguments behind units are read as if they stood alone. -/
theorem WriteAll.append_iff {front back : List Bytes} {items all : List Item}
    (h : WriteAll items front) :
    WriteAll all (front ++ back) ↔ ∃ items', all = items ++ items' ∧ WriteAll items' back := by
  rw [← ofArguments_eq_ok_iff, ofArguments_writeAll h]
  constructor
  · intro hread
    obtain ⟨items', hback, rfl⟩ := Except.exists_ok_of_map hread
    exact ⟨items', rfl, ofArguments_eq_ok_iff.1 hback⟩
  · rintro ⟨items', rfl, hback⟩
    rw [ofArguments_eq_ok_iff.2 hback]
    rfl

/-- If arguments are read as units, then those in front are units, unless a path is awaited. -/
theorem exists_writeAll_front {front back : List Bytes} {items : List Item}
    (h : WriteAll items (front ++ back)) (hfront : ¬ AwaitsPath front) :
    ∃ items, WriteAll items front := by
  obtain ⟨items', units, rest, rfl, hunits, hrest⟩ := exists_writeAll_or_noUnit front
  rcases hrest with rfl | hrest
  · exact ⟨items', by simpa using hunits⟩
  · exfalso
    by_cases hout : rest = [.ascii "--out"]
    · exact hfront ⟨items', units, hunits, by rw [hout]⟩
    · have hstuck : Stuck (units ++ rest ++ back) :=
        ⟨items', units, rest ++ back, by simp, hunits, hrest.append hout back⟩
      exact h.not_stuck hstuck

end Item

namespace Invocation

variable {call : Invocation} {o : Options}

/-- A run with another trace variable has the same options with the log on or off. -/
theorem options_trace (h : call.options = .ok o) (trace : Option Bytes) :
    ∃ v, { call with trace }.options = .ok (o.withLog v) := by
  rw [options, Options.ofArguments_traced] at h
  rw [options, Options.ofArguments_traced]
  obtain ⟨o', ho', rfl⟩ := Except.exists_ok_of_map h
  exact ⟨_, by rw [ho']; rfl⟩

theorem options_trace_error {help : Help} (h : call.options = .error help)
    (trace : Option Bytes) : { call with trace }.options = .error help := by
  rw [options, Options.ofArguments_traced] at h
  rw [options, Options.ofArguments_traced, Except.eq_error_of_map h]
  rfl

/-- A wish for the log between two units switches the log on. -/
theorem options_verbose {mode : Mode} {front back given : List Bytes}
    (harguments : call.arguments.map Bytes.untilZero = mode.name :: (front ++ back))
    (h : call.options = .ok o) (hfront : ¬ Item.AwaitsPath front)
    (hgiven : given.map Bytes.untilZero = mode.name :: (front ++ .ascii "--verbose" :: back)) :
    { call with arguments := given }.options = .ok (o.withLog true) := by
  rw [options_of_arguments harguments, Options.ofMode_eq_ok_iff] at h
  obtain ⟨all, hall, ho⟩ := h
  obtain ⟨items, hitems⟩ := Item.exists_writeAll_front hall hfront
  obtain ⟨items', rfl, hback⟩ := hitems.append_iff.1 hall
  have hverbose :
      Item.WriteAll (items ++ .verbose :: items') (front ++ .ascii "--verbose" :: back) :=
    hitems.append_iff.2 ⟨_, rfl, .cons .verbose hback⟩
  rw [options_of_arguments hgiven, Options.ofMode_eq_ok_iff]
  exact ⟨_, hverbose, Options.ofItems?_verbose ho⟩

end Invocation

/-! ## Runs with the log and without it -/

/-- The line of an error stream belongs to the log: it begins with the mark, or it goes on behind
such a line with an argument that has line feeds in it. -/
def Invocation.IsLogLine (call : Invocation) (stderr x : Bytes) : Prop :=
  Bytes.ascii "[cli] " <+: x ∨
    ∃ o label argument first rest, call.options = .ok o ∧
      o.Shows call.directory label argument ∧ newline ∈ argument ∧
      (logLine (label ++ argument)).lines = (.ascii "[cli] " ++ first) :: rest ∧ x ∈ rest ∧
      ((.ascii "[cli] " ++ first) :: rest) <:+: stderr.lines

/-- Two runs say the same and leave the same files, and every line that stands more often on one of
their error streams than on the other belongs to the log. -/
structure SameButLog (call : Invocation) (first second : Outcome × FileTree) : Prop where
  status : first.1.status = second.1.status
  stdout : first.1.stdout = second.1.stdout
  files : first.2 = second.2
  first_lines : ∀ x, second.1.stderr.lines.count x < first.1.stderr.lines.count x →
    call.IsLogLine first.1.stderr x
  second_lines : ∀ x, first.1.stderr.lines.count x < second.1.stderr.lines.count x →
    call.IsLogLine second.1.stderr x

theorem SameButLog.refl (call : Invocation) (run : Outcome × FileTree) : SameButLog call run run :=
  ⟨rfl, rfl, rfl, fun _ h => absurd h (Nat.lt_irrefl _), fun _ h => absurd h (Nat.lt_irrefl _)⟩

variable {call : Invocation} {tree : FileTree} {o : Options}

/-- The lines of a message of the log belong to the log. -/
theorem Invocation.isLogLine_of_mem {text stderr x : Bytes} (ho : call.options = .ok o)
    (htext : o.Notes call.directory text) (hx : x ∈ (logLine text).lines)
    (hpart : (logLine text).lines <:+: stderr.lines) : call.IsLogLine stderr x := by
  have hmark : newline ∉ Bytes.ascii "[cli] " := by decide
  obtain ⟨first, rest, hlines⟩ := Bytes.exists_lines_cons (s := text ++ [newline]) (by simp)
  have hlog : (logLine text).lines = (.ascii "[cli] " ++ first) :: rest := by
    rw [logLine, List.append_assoc]
    exact Bytes.lines_append_of_notMem hmark hlines
  rw [hlog] at hx hpart
  rcases List.mem_cons.1 hx with rfl | hx
  · exact Or.inl (List.prefix_append _ _)
  · right
    -- A text without a line feed is one line.
    have hnewline : newline ∈ text := by
      by_contra h
      obtain ⟨-, rfl⟩ := List.cons.inj ((Bytes.lines_append_newline h []).symm.trans hlines)
      cases hx
    rcases htext with h | ⟨label, argument, hshows, rfl⟩
    · exact absurd hnewline h
    · have hargument : newline ∈ argument :=
        (List.mem_append.1 hnewline).resolve_left hshows.newline_notMem
      exact ⟨o, label, argument, first, rest, ho, hshows, hargument, hlog, hx, hpart⟩

theorem sameButLog_runOptions (ho : call.options = .ok o) (tree : FileTree) (v v' : Bool) :
    SameButLog call (runOptions call tree (o.withLog v)) (runOptions call tree (o.withLog v')) := by
  obtain ⟨status, stdout, stderr, after, ⟨ms, hms, hstderr⟩, hrun⟩ :=
    o.exists_runOptions_withLog call tree
  have hlines (v v' : Bool) (x : Bytes)
      (h : (stderr v).lines.count x < (stderr v').lines.count x) :
      call.IsLogLine (stderr v') x := by
    rw [hstderr, hstderr] at h
    obtain ⟨text, htext, hx, hpart⟩ := Message.exists_log_of_count_lt h
    rw [hstderr]
    exact call.isLogLine_of_mem ho (hms text htext) hx hpart
  rw [hrun, hrun]
  exact ⟨rfl, rfl, rfl, hlines v' v, hlines v v'⟩

/-- Whether the log is asked for from outside, or by one more argument between the units of the
others, makes no difference to the status, to what is printed or to the files, and on the error
stream only lines of the log make one. -/
theorem run_same_but_log (call : Invocation) (tree : FileTree) :
    (∀ trace, SameButLog call (run call tree) (run { call with trace } tree)) ∧
    ∀ (mode : Mode) (front back given : List Bytes) (o : Options),
      call.arguments.map Bytes.untilZero = mode.name :: (front ++ back) → call.options = .ok o →
      ¬ Item.AwaitsPath front →
      given.map Bytes.untilZero = mode.name :: (front ++ .ascii "--verbose" :: back) →
        SameButLog call (run call tree) (run { call with arguments := given } tree) := by
  constructor
  · intro trace
    cases hoptions : call.options with
    | error help =>
      have htrace := call.options_trace_error hoptions trace
      rw [run_of_error hoptions, run_of_error htrace]
      exact .refl _ _
    | ok o =>
      obtain ⟨v, htrace⟩ := call.options_trace hoptions trace
      rw [run_of_ok hoptions, run_of_ok htrace]
      exact sameButLog_runOptions hoptions tree o.verbose v
  · intro mode front back given o harguments ho hfront hgiven
    have hverbose := Invocation.options_verbose harguments ho hfront hgiven
    rw [run_of_ok ho, run_of_ok hverbose]
    exact sameButLog_runOptions ho tree o.verbose true

/-- The log shows the name of an input with a line feed in it, and so does the report that there is
no such file. -/
theorem run_same_but_log_newline :
    let name := Bytes.ascii "a\nb"
    let given := [Bytes.ascii "--tokens", .ascii "--verbose", name]
    let call : Invocation := ⟨[.ascii "--tokens", name], none, [], .ascii "/"⟩
    let o : Options := ⟨.tokens, name, [], false⟩
    let quiet := run call .empty
    let traced := run { call with trace := some (.ascii "1") } .empty
    let verbose := run { call with arguments := given } .empty
    quiet.1.stderr.lines = [.ascii "cannot open file: a", .ascii "b"] ∧
      traced.1.stderr.lines = [.ascii "[cli] mode:  --tokens", .ascii "[cli] input: a", .ascii "b",
        .ascii "cannot open file: a", .ascii "b"] ∧
      SameButLog call quiet traced ∧ call.IsLogLine traced.1.stderr (.ascii "b") ∧
      call.options = .ok o ∧ ¬ Item.AwaitsPath [] ∧ SameButLog call quiet verbose := by
  intro name given call o quiet traced verbose
  have hquiet : quiet.1.stderr.lines = [.ascii "cannot open file: a", .ascii "b"] := by decide
  have htraced : traced.1.stderr.lines = [.ascii "[cli] mode:  --tokens", .ascii "[cli] input: a",
      .ascii "b", .ascii "cannot open file: a", .ascii "b"] := by decide
  have hoptions : call.options = .ok o := rfl
  have hfront : ¬ Item.AwaitsPath [] := by
    rintro ⟨items, units, -, h⟩
    simp at h
  obtain ⟨htrace, hverbose⟩ := run_same_but_log call .empty
  have hsame : SameButLog call quiet traced := htrace _
  have hline : call.IsLogLine traced.1.stderr (.ascii "b") := by
    apply hsame.second_lines
    rw [hquiet, htraced]
    decide
  exact ⟨hquiet, htraced, hsame, hline, hoptions, hfront,
    hverbose .tokens [] [name] given o (by decide) hoptions hfront (by decide)⟩

end Munch.Command
