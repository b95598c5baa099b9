import Munch.Command.Run

/-!
# The program

Reads the command line, the input and the environment, and prints and writes what
`Munch.Command` decides.
-/
namespace Munch.Main

open Command

def bytesOf (s : String) : Bytes := s.toUTF8.toList

def textOf (s : Bytes) : String := (String.fromUTF8? s.toByteArray).getD ""

/-- All bytes of a stream. -/
partial def readAll (stream : IO.FS.Stream) (seen : ByteArray) : IO ByteArray := do
  let chunk ← stream.read 65536
  if chunk.isEmpty then return seen else readAll stream (seen ++ chunk)

/-- The bytes of a file. What opens but has no bytes to read, such as a directory, is
empty. -/
def readFile? (name : String) : IO (Option Bytes) := do
  match ← (IO.FS.Handle.mk name .read).toBaseIO with
  | .error _ => return none
  | .ok handle =>
    match ← handle.readBinToEnd.toBaseIO with
    | .error _ => return some []
    | .ok content => return some content.toList

/-- The fault of a failed renaming, by the number the system gives it. -/
def renameFault : IO.Error → RenameFault
  | .resourceBusy _ _ => .busy
  | .inappropriateType _ 20 _ => .notDirectory
  | .inappropriateType _ 21 _ => .isDirectory
  | .alreadyExists _ 21 _ => .isDirectory
  | e => .other (bytesOf (toString e))

instance : FileSystem IO where
  Handle := IO.FS.Handle
  read? path := readFile? (textOf path)
  makeDirectories names := do
    let path := (List.intersperse [Byte.slash] names).flatten
    unless path.isEmpty do discard (IO.FS.createDirAll (textOf path)).toBaseIO
  create? path := do
    match ← (IO.FS.Handle.mk (textOf path) .write).toBaseIO with
    | .error _ => return none
    | .ok handle => return some handle
  write handle text := do
    return (← (do handle.write text.toByteArray; handle.flush : IO Unit).toBaseIO).isOk
  rename old new := do
    match ← (IO.FS.rename (textOf old) (textOf new)).toBaseIO with
    | .error e => return some (renameFault e)
    | .ok () => return none

/-- The standard input, if it is the input that a command line names. -/
def readStdin (traced : Bool) (arguments : List Bytes) : IO Bytes := do
  match Options.ofArguments traced arguments with
  | .error _ => return []
  | .ok o =>
    if o.input = .ascii "-" then return (← readAll (← IO.getStdin) .empty).toList else return []

def emit (outcome : Outcome) : IO UInt32 := do
  (← IO.getStdout).write outcome.stdout.toByteArray
  (← IO.getStdout).flush
  (← IO.getStderr).write outcome.stderr.toByteArray
  return outcome.status.toUInt32

end Munch.Main

open Munch in
def main (arguments : List String) : IO UInt32 := do
  let arguments := arguments.map Main.bytesOf
  let trace := (← IO.getEnv "DHALL_LEX_TRACE").map Main.bytesOf
  let directory := Main.bytesOf (← IO.currentDir).toString
  let stdin ← Main.readStdin (Command.isTraced trace) arguments
  Main.emit (← Command.perform ⟨arguments, trace, stdin, directory⟩)
