import Conjunct.Storage.Path
import Conjunct.Text.Blank

/-!
# The storage tree

A tree of named nodes and the contents of its files. A node is a directory, a device, or a file;
a file is named in the tree by a number, and the contents are kept apart under that number. So a
file that is open goes on to exist when its name is taken away or given to another file.

A path is followed name by name (`Storage.walk`). Every name but the last has to lead to a
directory, and each way to fail has its own error.
-/

namespace Conjunct

/-! ## Errors -/

/-- The reasons for which a path cannot be used. -/
inductive StorageError where
  | notFound
  | notADirectory
  | isADirectory
  | noSpace
  | nameTooLong
  | invalidName
  | notUtf8
  deriving DecidableEq

/-- The text of an error. -/
def StorageError.message : StorageError → String
  | notFound => "No such file or directory (os error 2)"
  | notADirectory => "Not a directory (os error 20)"
  | isADirectory => "Is a directory (os error 21)"
  | noSpace => "No space left on device (os error 28)"
  | nameTooLong => "File name too long (os error 36)"
  | invalidName => "file name contained an unexpected NUL byte"
  | notUtf8 => "stream did not contain valid UTF-8"

/-! ## The tree -/

/-- The devices. -/
inductive Device where
  /-- Refuses everything that is written to it. -/
  | full
  /-- Takes everything and keeps nothing. -/
  | null
  deriving DecidableEq

/-- What a place of the tree holds. -/
inductive Node where
  | directory
  | file (number : Nat)
  | device (d : Device)
  deriving DecidableEq

/-- The number of a file. -/
def Node.number? : Node → Option Nat
  | file number => some number
  | _ => none

/-- A place of the tree: the names that lead to it from the root. -/
abbrev Place := List String

/-- A tree of nodes, the contents of its files by number, and the place at which relative paths
begin. -/
structure Storage where
  nodes : List (Place × Node)
  contents : Array ByteArray
  working : Place

namespace Storage

/-- The longest path, in bytes. -/
def pathLimit : Nat := 4095

/-- The longest name, in bytes. -/
def nameLimit : Nat := 255

/-- The node at a place. -/
def node? (s : Storage) (place : Place) : Option Node :=
  if place = [] then some .directory else s.nodes.lookup place

/-- The content of a file. -/
def content (s : Storage) (number : Nat) : ByteArray :=
  (s.contents[number]?).getD ByteArray.empty

/-! ## Following paths -/

/-- Go from a directory to the node with the given name. -/
def enter (s : Storage) (place : Place) (name : String) : Except StorageError Place :=
  if name = "" ∨ name = "." then .ok place
  else if name = ".." then .ok place.dropLast
  else if nameLimit < name.utf8ByteSize then .error .nameTooLong
  else if (s.node? (place ++ [name])).isSome then .ok (place ++ [name])
  else .error .notFound

/-- Follow names from a place. -/
def walk (s : Storage) : Place → List String → Except StorageError Place
  | place, [] => .ok place
  | place, name :: names =>
    if s.node? place = some .directory then
      (s.enter place name).bind fun next => s.walk next names
    else
      .error .notADirectory

/-- Refuse a path that cannot lead anywhere. -/
def checkPath (path : Path) : Except StorageError Unit :=
  if '\x00' ∈ path.toList then .error .invalidName
  else if path = "" then .error .notFound
  else if pathLimit < path.utf8ByteSize then .error .nameTooLong
  else .ok ()

/-- The place at which a path begins. -/
def start (s : Storage) (path : Path) : Place :=
  if path.isAbsolute then [] else s.working

/-- The place to which a path leads, with the node there. -/
def find (s : Storage) (path : Path) : Except StorageError (Place × Node) := do
  checkPath path
  let place ← s.walk (s.start path) path.names
  match s.node? place with
  | some node => return (place, node)
  | none => .error .notFound

/-! ## Changing the tree -/

/-- Set the content of a file. -/
def setContent (s : Storage) (number : Nat) (bytes : ByteArray) : Storage :=
  { s with contents := s.contents.setIfInBounds number bytes }

/-- Put a new file at a place. A file that had the place before keeps its number and content. -/
def putFile (s : Storage) (place : Place) (bytes : ByteArray) : Storage :=
  { s with
    nodes := (place, .file s.contents.size) :: s.nodes.filter (·.1 ≠ place)
    contents := s.contents.push bytes }

/-- Put a directory at a place that holds nothing. -/
def putDirectory (s : Storage) (place : Place) : Storage :=
  { s with nodes := (place, .directory) :: s.nodes }

/-- A storage with the devices and an empty working directory. -/
def withWorking (working : Place) : Storage :=
  let devices : List (Place × Node) := [(["dev"], .directory),
    (["dev", "full"], .device .full), (["dev", "null"], .device .null)]
  let lead := (List.range working.length).map fun n => (working.take (n + 1), Node.directory)
  ⟨devices ++ lead, #[], working⟩

/-! ## Looking at the files -/

/-- All files with their contents. -/
def files (s : Storage) : List (Place × ByteArray) :=
  s.nodes.filterMap fun (place, node) =>
    node.number?.map fun number => (place, s.content number)

/-- The files that were not there before, or had another content. -/
def changedSince (before after : Storage) : List (Place × ByteArray) :=
  after.files.filter fun (place, bytes) =>
    (before.files.lookup place).map ByteArray.data ≠ some bytes.data

/-- The path from the working directory to a place in it or below it. -/
def relative? (s : Storage) (place : Place) : Option Path :=
  if s.working.isPrefixOf place then
    some (Text.joined "/" (place.drop s.working.length))
  else
    none

end Storage

end Conjunct
