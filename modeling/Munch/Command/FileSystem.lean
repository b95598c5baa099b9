import Munch.Bytes

/-!
# File systems

A command reads a file, and replaces one by way of a temporary file beside it: the text is
written to the temporary file, and this takes the name of the target. Each of the steps can
fail. What a step does is up to the file system; the order of the steps and what follows from
a failure are the same for all of them.

## Main definitions

* `FileSystem`: the operations of a file system.
* `FileSystem.replace`: replacing a file.
* `WriteFault`: the causes for which a file is not replaced.
-/
namespace Munch.Command

/-! ## Texts that name files -/

/-- The names between the slashes of a text, empty ones included. -/
def splitPath (path : Bytes) : List Bytes :=
  path.foldr (fun b names =>
    if b = Byte.slash then [] :: names
    else match names with
      | [] => [[b]]
      | name :: names => (b :: name) :: names) [[]]

/-- The names before the last slash. -/
def parentNames (path : Bytes) : List Bytes := (splitPath path).dropLast

/-- What stands after the last slash. -/
def lastName (path : Bytes) : Bytes := (splitPath path).getLast?.getD []

/-- A path as seen from a directory; one that begins with a slash is the same from
everywhere. -/
def absolutePath (directory path : Bytes) : Bytes :=
  if path.head? = some Byte.slash then path
  else if directory.getLast? = some Byte.slash then directory ++ path
  else directory ++ Byte.slash :: path

/-- The temporary file that is written in place of a file. -/
def temporaryPath (path : Bytes) : Bytes := path ++ .ascii ".tmp"

/-! ## Faults -/

/-- Why a temporary file cannot take the name of its target. -/
inductive RenameFault
  | isDirectory
  | notDirectory
  | busy
  | other (reason : Bytes)
deriving DecidableEq, Repr

def RenameFault.reason : RenameFault → Bytes
  | isDirectory => .ascii "Is a directory"
  | notDirectory => .ascii "Not a directory"
  | busy => .ascii "Device or resource busy"
  | other reason => reason

inductive WriteFault
  | cannotOpen
  | cannotFlush
  | cannotRename (fault : RenameFault)
deriving DecidableEq, Repr

def WriteFault.message (target : Bytes) : WriteFault → Bytes
  | cannotOpen => .ascii "cannot open temp file: " ++ temporaryPath target
  | cannotFlush => .ascii "cannot flush temp file: " ++ temporaryPath target
  | cannotRename fault =>
    .ascii "rename failed: " ++ temporaryPath target ++ .ascii " -> " ++ target ++
      .ascii ": " ++ fault.reason

/-! ## Operations -/

/-- What a command asks of a file system. -/
class FileSystem (m : Type → Type) where
  /-- A file that is open to be written. -/
  Handle : Type
  /-- The bytes of what a path names, unless it cannot be opened. -/
  read? : Bytes → m (Option Bytes)
  /-- Makes the directories that some names lead through, as far as that is possible. -/
  makeDirectories : List Bytes → m Unit
  /-- Opens a file and makes it empty, or makes one, unless neither is possible. -/
  create? : Bytes → m (Option Handle)
  /-- Writes a text to an open file; false if not all of it has reached the file. -/
  write : Handle → Bytes → m Bool
  /-- Gives the file of the first name the second one, unless there is a fault. -/
  rename : Bytes → Bytes → m (Option RenameFault)

namespace FileSystem

variable {m : Type → Type} [Monad m] [FileSystem m]

/-- Writes a text to the temporary file of a target and gives that the target's name. -/
def writeAndRename (target content : Bytes) : m (Option WriteFault) := do
  match ← create? (temporaryPath target) with
  | none => return some .cannotOpen
  | some handle =>
    if ← write handle content then
      return (← rename (temporaryPath target) target).map .cannotRename
    else return some .cannotFlush

/-- Replaces the file that a path names, making the directories before it. A temporary file
that cannot be written or renamed stays. -/
def replace (target content : Bytes) : m (Option WriteFault) := do
  unless (parentNames target).isEmpty do makeDirectories (parentNames target)
  writeAndRename target content

end FileSystem
end Munch.Command
