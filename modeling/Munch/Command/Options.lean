import Munch.Bytes

/-!
# Command line options

The first argument is the mode. In a lexing mode the arguments after it are read from left
to right as items: an output path, the wish for a log, or an input. They may stand in any
order; the last output path and the last input count.

## Main definitions

* `Item`, `Item.ofArguments`: the items that a list of arguments writes.
* `Options`, `Options.ofItems?`: what the items ask for.
* `Options.ofArguments`, `Help`: what a whole command line asks for, or the help it gets.
-/
namespace Munch.Command

inductive Mode
  | tokens
  | json
  | check
deriving DecidableEq, Repr

namespace Mode

def name : Mode → Bytes
  | tokens => .ascii "--tokens"
  | json => .ascii "--json"
  | check => .ascii "--check"

def ofName? (argument : Bytes) : Option Mode :=
  [tokens, json, check].find? fun mode => mode.name == argument

end Mode

inductive Item
  | out (path : Bytes)
  | verbose
  | input (name : Bytes)
deriving DecidableEq, Repr

namespace Item

/-- The path of an argument that names the output in itself. -/
def attachedPath? (argument : Bytes) : Option Bytes :=
  if (Bytes.ascii "--out=").isPrefixOf argument then some (argument.drop 6) else none

/-- A dash is the standard input; any other argument that begins with a dash, and the empty
one, is no input. -/
def isInputName : Bytes → Bool
  | [] => false
  | b :: s => b != 0x2D || s.isEmpty

/-- The items of a list of arguments, or the first argument that begins none. An output
path that stands alone takes the next argument, whatever it is. -/
def ofArguments : List Bytes → Except Bytes (List Item)
  | [] => .ok []
  | argument :: rest =>
    match attachedPath? argument with
    | some path => (ofArguments rest).map (out path :: ·)
    | none =>
      if argument = .ascii "--out" then
        match rest with
        | [] => .error argument
        | path :: rest => (ofArguments rest).map (out path :: ·)
      else if argument = .ascii "--verbose" then (ofArguments rest).map (verbose :: ·)
      else if isInputName argument then (ofArguments rest).map (input argument :: ·)
      else .error argument

def path? : Item → Option Bytes
  | out path => some path
  | _ => none

def inputName? : Item → Option Bytes
  | input name => some name
  | _ => none

end Item

structure Options where
  mode : Mode
  input : Bytes
  /-- The path of the output file; there is none if it is empty. -/
  out : Bytes
  verbose : Bool
deriving DecidableEq, Repr

namespace Options

/-- The options of some items, if there is an input among them. -/
def ofItems? (mode : Mode) (traced : Bool) (items : List Item) : Option Options :=
  (items.filterMap Item.inputName?).getLast?.map fun input =>
    ⟨mode, input, (items.filterMap Item.path?).getLast?.getD [],
      traced || items.contains .verbose⟩

end Options

/-- What is answered to a command line that does not ask for lexing. -/
inductive Help
  | usage (status : Nat)
  | version
  | unknownFlag (argument : Bytes)
deriving DecidableEq, Repr

namespace Options

/-- The options that the arguments after a lexing mode write. -/
def ofMode (mode : Mode) (traced : Bool) (arguments : List Bytes) : Except Help Options :=
  match Item.ofArguments arguments with
  | .error argument => .error (.unknownFlag argument)
  | .ok items =>
    match ofItems? mode traced items with
    | none => .error (.usage 2)
    | some options => .ok options

/-- The options of a command line; `traced` asks for the log from outside of it. -/
def ofArguments (traced : Bool) : List Bytes → Except Help Options
  | [] => .error (.usage 0)
  | first :: rest =>
    if first = .ascii "--help" then .error (.usage 0)
    else if first = .ascii "--version" then .error .version
    else
      match Mode.ofName? first with
      | none => .error (.usage 2)
      | some mode => if rest = [] then .error (.usage 2) else ofMode mode traced rest

end Options
end Munch.Command
