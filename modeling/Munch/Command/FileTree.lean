import Munch.Command.FileSystem

/-!
# File trees

A file tree holds directories, regular files and symbolic links under a root. Paths name
places in it: an empty name and one dot stay in a directory, two dots leave it, and a link
leads on to where its own path leads. A regular file has a number, under which its content is
kept, so that it can stand at several places. A tree also says what a system refuses that the
tree alone would allow.

## Main definitions

* `FileTree`, `FileTree.node?`, `FileTree.content`: a tree, and what it holds.
* `Limits`: what is refused.
* `FileTree.locate?`: the place to which names lead.
* `FileTree.read?`, `FileTree.create?`, `FileTree.write`, `FileTree.rename`: the operations of
  a file system, and `FileTree.replace`, which is made of them.
-/
namespace Munch.Command

/-- A place as the list of names that lead to it from the root. -/
abbrev Place := List Bytes

inductive Node
  | directory
  | file (number : Nat)
  | link (path : Bytes)
deriving DecidableEq, Repr

/-- What a system refuses for want of permission or room, because a name is too long, or for
any other reason. -/
structure Limits where
  /-- Paths that cannot be opened to be read. -/
  unreadable : List Bytes
  /-- Paths that cannot be opened to be written. -/
  unwritable : List Bytes
  /-- Places at which no directory can be made. -/
  unmakable : List Place
  /-- How much of a text is stored before writing it fails, if it does. -/
  storedBytes? : Option Nat
  /-- Why no file can be renamed, if none can. -/
  renameFault? : Option RenameFault
deriving DecidableEq, Repr

/-- Nothing is refused. -/
def Limits.none : Limits := ⟨[], [], [], .none, .none⟩

structure FileTree where
  nodes : List (Place × Node)
  contents : List (Nat × Bytes)
  limits : Limits
deriving DecidableEq, Repr

/-- The name leads to an entry of a directory, and not to a directory already there. -/
def isEntryName (name : Bytes) : Bool :=
  name != [] && name != .ascii "." && name != .ascii ".."

namespace FileTree

/-- Nothing is in the tree and nothing is refused. -/
def empty : FileTree := ⟨[], [], .none⟩

/-- What is at a place; the root is a directory in every tree. -/
def node? (t : FileTree) (place : Place) : Option Node :=
  if place = [] then some .directory else t.nodes.lookup place

def isDirectory (t : FileTree) (place : Place) : Bool := t.node? place == some .directory

/-- What the regular file of a number holds. -/
def content (t : FileTree) (number : Nat) : Bytes := (t.contents.lookup number).getD []

def erase (t : FileTree) (place : Place) : FileTree :=
  { t with nodes := t.nodes.filter fun entry => entry.1 != place }

def insert (t : FileTree) (place : Place) (node : Node) : FileTree :=
  { t with nodes := (place, node) :: (t.erase place).nodes }

def store (t : FileTree) (number : Nat) (content : Bytes) : FileTree :=
  { t with contents := (number, content) :: t.contents }

/-- A number that no regular file of the tree has. -/
def freshNumber (t : FileTree) : Nat :=
  t.nodes.foldr (fun entry n => match entry.2 with | .file number => max (number + 1) n | _ => n) 0

/-! ## Where names lead -/

/-- Follows names from a place. From a link `follow` goes on, with the names of its path
before those that are left. Only the last name may be missing from its directory. -/
def walkWith (t : FileTree) (follow : Place → List Bytes → Option Place) (here : Place) :
    List Bytes → Option Place
  | [] => some here
  | name :: names =>
    if !t.isDirectory here then none
    else if name = [] ∨ name = .ascii "." then t.walkWith follow here names
    else if name = .ascii ".." then t.walkWith follow here.dropLast names
    else
      match t.node? (here ++ [name]) with
      | none => if names = [] then some (here ++ [name]) else none
      | some (.link path) =>
        follow (if path.head? = some Byte.slash then [] else here) (splitPath path ++ names)
      | some _ => t.walkWith follow (here ++ [name]) names

/-- Follows names from a place through at most so many links. -/
def walk (t : FileTree) : Nat → Place → List Bytes → Option Place
  | 0 => t.walkWith fun _ _ => none
  | links + 1 => t.walkWith (t.walk links)

/-- The place to which names lead, with links followed, but not more than forty of them. There
need not be anything at it. -/
def locate? (t : FileTree) (names : List Bytes) : Option Place := t.walk 40 [] names

/-- The place of a name in the directory to which others lead. The name is not followed. -/
def entryPlace? (t : FileTree) (front : List Bytes) (name : Bytes) : Option Place :=
  ((t.locate? front).filter (t.isDirectory ·)).map (· ++ [name])

/-- The place that a path names, whether or not there is something or a link. -/
def ownPlace? (t : FileTree) (path : Bytes) : Option Place :=
  t.entryPlace? (parentNames path) (lastName path)

/-! ## Operations -/

/-- The bytes read from what a path leads to: the content of a file, and nothing from a
directory. -/
def read? (t : FileTree) (path : Bytes) : Option Bytes :=
  if path ∈ t.limits.unreadable then none
  else
    match (t.locate? (splitPath path)).bind t.node? with
    | some .directory => some []
    | some (.file number) => some (t.content number)
    | _ => none

/-- Makes a directory with this name in the one to which others lead, if nothing is there. -/
def makeDirectory (t : FileTree) (front : List Bytes) (name : Bytes) : FileTree :=
  match t.entryPlace? front name with
  | none => t
  | some place =>
    if isEntryName name && (t.node? place).isNone && !t.limits.unmakable.contains place then
      t.insert place .directory
    else t

/-- Makes the directories that names lead through from the one to which others lead. -/
def makeDirectories (t : FileTree) (front : List Bytes) : List Bytes → FileTree
  | [] => t
  | name :: names => (t.makeDirectory front name).makeDirectories (front ++ [name]) names

/-- Opens the regular file to which a path leads and makes it empty, or makes one there. -/
def create? (t : FileTree) (path : Bytes) : Option Nat × FileTree :=
  if path ∈ t.limits.unwritable then (none, t)
  else
    match t.locate? (splitPath path) with
    | none => (none, t)
    | some place =>
      match t.node? place with
      | none =>
        (some t.freshNumber, (t.insert place (.file t.freshNumber)).store t.freshNumber [])
      | some (.file number) => (some number, t.store number [])
      | some _ => (none, t)

/-- Writes a text to an open file, or as much of it as is stored before that fails. -/
def write (t : FileTree) (number : Nat) (text : Bytes) : Bool × FileTree :=
  match t.limits.storedBytes? with
  | none => (true, t.store number text)
  | some size => (false, t.store number (text.take size))

/-- The place that a regular file takes over when it is renamed to a path. The root and the
directories that dots stand for are in use; a path that ends with a slash asks for a
directory, which a file is not. A link is not followed. -/
def renamePlace? (t : FileTree) (path : Bytes) : Except RenameFault Place :=
  if ((splitPath path).filter (· ≠ [])).getLast?.all (!isEntryName ·) then .error .busy
  else if lastName path = [] then .error .notDirectory
  else
    match t.ownPlace? path with
    | none => .error (.other (.ascii "No such file or directory"))
    | some place => if t.isDirectory place then .error .isDirectory else .ok place

/-- Moves what the first path names to the place that the second one names. Two places of one
regular file stay as they are. -/
def rename (t : FileTree) (old new : Bytes) : Option RenameFault × FileTree :=
  match t.renamePlace? new with
  | .error fault => (some fault, t)
  | .ok place =>
    match t.limits.renameFault? with
    | some fault => (some fault, t)
    | none =>
      match t.ownPlace? old with
      | none => (some (.other (.ascii "No such file or directory")), t)
      | some oldPlace =>
        match t.node? oldPlace with
        | none => (some (.other (.ascii "No such file or directory")), t)
        | some node =>
          if node = .directory then (some .notDirectory, t)
          else if t.node? place = some node ∧ node matches .file _ then (none, t)
          else (none, (t.erase oldPlace).insert place node)

instance : FileSystem (StateM FileTree) where
  Handle := Nat
  read? path := fun t => (t.read? path, t)
  makeDirectories names := fun t => ((), t.makeDirectories [] names)
  create? path := fun t => t.create? path
  write number text := fun t => t.write number text
  rename old new := fun t => t.rename old new

/-- Replaces the file that a path names. -/
def replace (t : FileTree) (target content : Bytes) : Option WriteFault × FileTree :=
  Id.run ((FileSystem.replace target content : StateM FileTree (Option WriteFault)).run t)

/-! ## Building and listing -/

/-- The tree with a directory at a path, and those that lead to it. -/
def addDirectory (t : FileTree) (path : Bytes) : FileTree := t.makeDirectories [] (splitPath path)

/-- The tree with a file at a path, and the directories that lead to it. -/
def addFile (t : FileTree) (path content : Bytes) : FileTree :=
  match (t.makeDirectories [] (parentNames path)).create? path with
  | (none, t) => t
  | (some number, t) => t.store number content

/-- The regular files below a directory, each with its names from there. -/
def filesBelow (t : FileTree) (directory : Place) : List (List Bytes × Bytes) :=
  t.nodes.filterMap fun entry =>
    match entry.2 with
    | .file number =>
      if directory.isPrefixOf entry.1 then
        some (entry.1.drop directory.length, t.content number)
      else none
    | _ => none

/-! ## What an operation leaves as it is -/

section Frame

variable (t : FileTree) {place other : Place} (node : Node) {number k : Nat} (content : Bytes)

theorem lookup_erase_of_ne (h : other ≠ place) :
    (t.erase place).nodes.lookup other = t.nodes.lookup other := by
  obtain ⟨nodes, contents, limits⟩ := t
  simp only [erase]
  induction nodes with
  | nil => rfl
  | cons entry nodes ih =>
    obtain ⟨taken, node⟩ := entry
    by_cases he : taken = place
    · subst he
      simp [List.lookup_cons, ih, beq_false_of_ne h]
    · by_cases ho : other = taken <;> simp [List.lookup_cons, he, ho, ih]

theorem node?_insert_self (h : place ≠ []) : (t.insert place node).node? place = some node := by
  simp [node?, insert, h]

theorem node?_insert_of_ne (h : other ≠ place) :
    (t.insert place node).node? other = t.node? other := by
  unfold node? insert
  split
  · rfl
  · rw [List.lookup_cons, beq_false_of_ne h, lookup_erase_of_ne t h]

@[simp] theorem content_store_self : (t.store number content).content number = content := by
  simp [FileTree.content, store]

theorem content_store_of_ne (h : k ≠ number) :
    (t.store number content).content k = t.content k := by
  simp [FileTree.content, store, List.lookup_cons, beq_false_of_ne h]

end Frame

end FileTree
end Munch.Command
