import Conjunct.Storage.Tree

/-!
# Making and removing names

The last name of a path is looked up apart from the others when it is given to something or taken
away: the names before it lead to a directory, and the last one is an *entry* of that directory,
whether anything has it or not.

Directories are made name by name along a path, and a path that goes into a directory and out of it
again makes it too. Only the name of a file can be removed. A file that is open goes on to exist
without its name.
-/

namespace Conjunct

/-! ## Entries -/

/-- A name in a directory. -/
structure Entry where
  directory : Place
  name : String

namespace Entry

/-- The place that an entry stands for. -/
def place (e : Entry) : Place :=
  e.directory ++ [e.name]

/-- Whether a name goes nowhere or up, and so belongs to a directory that is there already. -/
def isDots (e : Entry) : Bool :=
  e.name = "." ∨ e.name = ".."

end Entry

namespace Storage

/-- The entry to which a path leads. Slashes at the end do not count. -/
def entry (s : Storage) (path : Path) : Except StorageError Entry := do
  checkPath path
  match path.names.reverse.dropWhile (· = "") with
  | [] => .error .isADirectory
  | last :: before =>
    let directory ← s.walk (s.start path) before.reverse
    if s.node? directory = some .directory then return ⟨directory, last⟩
    else .error .notADirectory

/-! ## Directories -/

/-- Make the directories to which names lead from a place, as far as they are not there. -/
def makeDirectories (s : Storage) (place : Place) : List String → Except StorageError Storage
  | [] => .ok s
  | name :: names =>
    match s.enter place name with
    | .ok next =>
      if s.node? next = some .directory then s.makeDirectories next names
      else .error .notADirectory
    | .error .notFound => (s.putDirectory (place ++ [name])).makeDirectories (place ++ [name]) names
    | .error e => .error e

/-- Make the directory to which a path leads, and those on the way to it. -/
def addDirectory (s : Storage) (path : Path) : Except StorageError Storage := do
  checkPath path
  s.makeDirectories (s.start path) path.names

/-- Make the directories on the way to the entry of a path. -/
def addParents (s : Storage) (path : Path) : Except StorageError Storage := do
  checkPath path
  s.makeDirectories (s.start path) (path.names.filter fun name => name ≠ "" ∧ name ≠ ".").dropLast

/-! ## Removing -/

/-- Take the name of a file away. -/
def remove (s : Storage) (path : Path) : Except StorageError Storage := do
  let e ← s.entry path
  let place ← s.enter e.directory e.name
  if s.node? place = some .directory then .error .isADirectory
  else if path.endsInSlash then .error .notADirectory
  else return { s with nodes := s.nodes.filter (·.1 ≠ place) }

end Storage

end Conjunct
