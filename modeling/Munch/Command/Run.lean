import Munch.Command.Options
import Munch.Command.FileTree
import Munch.Report

/-!
# Running a command line

A command line lexes one input, prints the result and writes it to a file if one is asked
for. What is printed depends only on the options and the input, so a run has three steps:
the input is read, a draft of the answer is made, and the draft is finished with what became
of writing the file. A run is the same over every file system.

## Main definitions

* `Draft`, `Options.draft`: the text, the log and the status of an input.
* `Draft.finish`: the answer once the text is written or could not be.
* `Invocation`, `perform`: a whole run over a file system.
* `run`: a whole run over a file tree.
-/
namespace Munch.Command

def usageText : Bytes :=
  .ascii "Usage: dhall-lex [--tokens|--check|--json] [--out PATH] [--verbose] <file|->\n" ++
    .ascii "       dhall-lex --version | --help\n"

def versionText : Bytes := .ascii "dhall-lex 0.1.0\n"

/-- What a run prints and the status it ends with. -/
structure Outcome where
  status : Nat
  stdout : Bytes
  stderr : Bytes
deriving DecidableEq, Repr

/-- The answer to an input before anything is written. Without a text there is nothing to
print or to write. -/
structure Draft where
  status : Nat
  text : Option Bytes
  log : Bytes
deriving DecidableEq, Repr

namespace Options

/-- A line of the log. -/
def note (o : Options) (line : Bytes) : Bytes :=
  if o.verbose then .ascii "[cli] " ++ line ++ [Byte.newline] else []

def noteToken (o : Options) (t : Token) : Bytes :=
  o.note (.ascii "token " ++ .ascii t.kind.name ++ .ascii " at " ++
    Bytes.decimal t.position.line ++ .ascii ":" ++ Bytes.decimal t.position.col)

def noteTokens (o : Options) (ts : List Token) : Bytes := ts.flatMap o.noteToken

/-- What is logged before the input is read. -/
def opening (o : Options) : Bytes :=
  o.note (.ascii "mode:  " ++ o.mode.name) ++ o.note (.ascii "input: " ++ o.input)

/-- A JSON text with a line feed after it. -/
def jsonLine (style : Json.Style) (value : Json) : Bytes := value.print style ++ [Byte.newline]

def diagnosticsLine (items : List Json) : Bytes := jsonLine .compact (Report.diagnostics items)

/-- One line for each token before the end or the diagnostic, which has a line too. Every
token is logged. -/
def listing (o : Options) (source : Bytes) : Draft :=
  let reading := Reading.ofSource source
  let lines := reading.tokens.flatMap fun t => t.line ++ [Byte.newline]
  let log := o.noteTokens reading.tokens
  match reading.failure with
  | none => ⟨0, some lines, log⟩
  | some d => ⟨1, some (lines ++ .ascii "lex error: " ++ d.what ++ [Byte.newline]), log⟩

/-- The status of a run that is aborted. -/
def aborted : Nat := 134

/-- The tokens as indented JSON, or the diagnostic. Tokens are logged only if there is no
diagnostic. A token that does not hold a value of its kind would abort the run, but tokens of
a source always do. -/
def dump (o : Options) (source : Bytes) : Draft :=
  match tokenize source with
  | .error d => ⟨1, some (diagnosticsLine [Report.diagnostic d]), []⟩
  | .ok ts =>
    let log := o.noteTokens ts ++
      o.note (.ascii "lexed " ++ Bytes.decimal ts.length ++ .ascii " tokens")
    match Report.tokens? ts with
    | some report => ⟨0, some (jsonLine (.indented 2) report), log⟩
    | none => ⟨aborted, none, log⟩

/-- The diagnostics as JSON: none or one. -/
def verdict (o : Options) (source : Bytes) : Draft :=
  match tokenize source with
  | .error d => ⟨1, some (diagnosticsLine [Report.diagnostic d]), []⟩
  | .ok ts =>
    ⟨0, some (diagnosticsLine []), o.noteTokens ts ++
      o.note (.ascii "check ok: " ++ Bytes.decimal ts.length ++ .ascii " tokens")⟩

/-- The answer to a source that could be read. -/
def answer (o : Options) (source : Bytes) : Draft :=
  match o.mode with
  | .tokens => o.listing source
  | .json => o.dump source
  | .check => o.verdict source

/-- The answer where the input cannot be opened. Only a check reports that as its text. -/
def refusal (o : Options) : Draft :=
  if o.mode = .check then ⟨1, some (diagnosticsLine [Report.unreadable o.input]), []⟩
  else ⟨1, none, .ascii "cannot open file: " ++ o.input ++ [Byte.newline]⟩

/-- The answer to an input, or to one that cannot be opened. -/
def draft (o : Options) : Option Bytes → Draft
  | none => { o.refusal with log := o.opening ++ o.refusal.log }
  | some source =>
    let size := o.note (.ascii "read " ++ Bytes.decimal source.length ++ .ascii " bytes")
    { o.answer source with log := o.opening ++ size ++ (o.answer source).log }

/-- The file that the text is written to, as seen from the working directory. -/
def target? (o : Options) (directory : Bytes) : Option Bytes :=
  if o.out = [] then none else some (absolutePath directory o.out)

end Options

/-- What became of writing a text: the file it was meant for, and the fault if it is not
there. -/
structure Written where
  target : Bytes
  fault : Option WriteFault
deriving DecidableEq, Repr

namespace Draft

/-- The text that is to be written, with its target. -/
def errand? (d : Draft) (target : Option Bytes) : Option (Bytes × Bytes) :=
  target.bind fun path => d.text.map fun text => (path, text)

/-- The answer, given what became of the text; a text that could not be written makes the
run fail. -/
def finish (d : Draft) (o : Options) : Option Written → Outcome
  | none => ⟨d.status, d.text.getD [], d.log⟩
  | some ⟨target, fault⟩ =>
    let log := d.log ++ o.note (.ascii "writing output to: " ++ target)
    match fault with
    | none => ⟨d.status, d.text.getD [], log⟩
    | some fault =>
      ⟨1, d.text.getD [],
        log ++ .ascii "write output failed: " ++ fault.message target ++ [Byte.newline]⟩

end Draft

/-- The answer to a command line that does not ask for lexing. -/
def Help.outcome : Help → Outcome
  | usage status => ⟨status, usageText, []⟩
  | version => ⟨0, versionText, []⟩
  | unknownFlag argument =>
    ⟨2, usageText, .ascii "unknown flag: " ++ argument ++ [Byte.newline]⟩

/-- The log is asked for from outside by the value `1` alone. -/
def isTraced (value : Option Bytes) : Bool := value == some (.ascii "1")

/-! ## Over a file system -/

/-- A command line with all that it depends on besides the files. Arguments and the value of
the trace variable are zero-terminated texts. -/
structure Invocation where
  arguments : List Bytes
  trace : Option Bytes
  stdin : Bytes
  directory : Bytes
deriving DecidableEq, Repr

def Invocation.options (call : Invocation) : Except Help Options :=
  Options.ofArguments (isTraced (call.trace.map Bytes.untilZero))
    (call.arguments.map Bytes.untilZero)

section Perform

variable {m : Type → Type} [Monad m] [FileSystem m]

/-- The bytes of the input: a dash is the standard input. -/
def Invocation.readInput (call : Invocation) (name : Bytes) : m (Option Bytes) :=
  if name = .ascii "-" then return some call.stdin
  else FileSystem.read? (absolutePath call.directory name)

/-- Lexes as some options say. -/
def performOptions (call : Invocation) (o : Options) : m Outcome := do
  let draft := o.draft (← call.readInput o.input)
  match draft.errand? (o.target? call.directory) with
  | none => return draft.finish o none
  | some (target, text) =>
    return draft.finish o (some ⟨target, ← FileSystem.replace target text⟩)

def perform (call : Invocation) : m Outcome :=
  match call.options with
  | .error help => return help.outcome
  | .ok o => performOptions call o

end Perform

/-! ## Over a file tree -/

def Invocation.input? (call : Invocation) (tree : FileTree) (name : Bytes) : Option Bytes :=
  if name = .ascii "-" then some call.stdin else tree.read? (absolutePath call.directory name)

def runOptions (call : Invocation) (tree : FileTree) (o : Options) : Outcome × FileTree :=
  Id.run ((performOptions call o : StateM FileTree Outcome).run tree)

def run (call : Invocation) (tree : FileTree) : Outcome × FileTree :=
  Id.run ((perform call : StateM FileTree Outcome).run tree)

theorem run_of_error {call : Invocation} {help : Help} (h : call.options = .error help)
    (tree : FileTree) : run call tree = (help.outcome, tree) := by
  rw [run, perform, h]
  rfl

theorem run_of_ok {call : Invocation} {o : Options} (h : call.options = .ok o)
    (tree : FileTree) : run call tree = runOptions call tree o := by
  rw [run, perform, h]
  rfl

/-- Reading the input leaves the tree as it is. -/
theorem readInput_run (call : Invocation) (tree : FileTree) (name : Bytes) :
    (call.readInput name : StateM FileTree (Option Bytes)).run tree =
      (call.input? tree name, tree) := by
  unfold Invocation.readInput Invocation.input?
  split <;> rfl

theorem runOptions_eq (call : Invocation) (tree : FileTree) (o : Options) :
    runOptions call tree o =
      let draft := o.draft (call.input? tree o.input)
      match draft.errand? (o.target? call.directory) with
      | none => (draft.finish o none, tree)
      | some (target, text) =>
        (draft.finish o (some ⟨target, (tree.replace target text).1⟩),
          (tree.replace target text).2) := by
  simp only [runOptions, performOptions, StateT.run_bind, readInput_run]
  dsimp only [Id.run, bind]
  split <;> rfl

/-- Without a file or a text to write a run is its draft. -/
theorem runOptions_of_nothing {call : Invocation} {tree : FileTree} {o : Options}
    {source : Option Bytes} (hsource : call.input? tree o.input = source)
    (h : o.out = [] ∨ (o.draft source).text = none) :
    runOptions call tree o = ((o.draft source).finish o none, tree) := by
  have herrand : (o.draft source).errand? (o.target? call.directory) = none := by
    rcases h with h | h <;> simp [Draft.errand?, Options.target?, h]
  rw [runOptions_eq, hsource]
  dsimp only
  rw [herrand]

end Munch.Command
