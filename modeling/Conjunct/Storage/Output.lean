import Conjunct.Storage.Entry

/-!
# Writing files

Creating a file empties the file that the path leads to, if there is one, and it keeps its number;
so a reader of that file finds it empty. An output holds text back in blocks, which shows only on a
device that refuses it: the refusal comes when a block is full, or when the output is flushed.
-/

namespace Conjunct

namespace Storage

/-- Where written text goes. -/
inductive Target where
  | file (number : Nat)
  | device (d : Device)

/-- Open a path for writing: the file there is emptied, or a new one is made. A path that ends in
a slash, or in a dot or two, can only mean a directory. -/
def create (s : Storage) (path : Path) : Except StorageError (Target × Storage) := do
  let e ← s.entry path
  if path.endsInSlash ∨ e.isDots then
    .error .isADirectory
  else if nameLimit < e.name.utf8ByteSize then
    .error .nameTooLong
  else
    match s.node? e.place with
    | some .directory => .error .isADirectory
    | some (.device d) => return (.device d, s)
    | some (.file number) => return (.file number, s.setContent number ByteArray.empty)
    | none => return (.file s.contents.size, s.putFile e.place ByteArray.empty)

/-- Write a whole content to a path. -/
def writeBytes (s : Storage) (path : Path) (bytes : ByteArray) : Except StorageError Storage := do
  match ← s.create path with
  | (.file number, s) => return s.setContent number bytes
  | (.device .null, s) => return s
  | (.device .full, s) => if bytes.isEmpty then return s else .error .noSpace

/-- Write a whole text to a path. -/
def writeText (s : Storage) (path : Path) (text : String) : Except StorageError Storage :=
  s.writeBytes path text.toUTF8

/-- Write a whole content to a path, and make the directories that lead to it. -/
def addFile (s : Storage) (path : Path) (bytes : ByteArray) : Except StorageError Storage := do
  (← s.addParents path).writeBytes path bytes

/-- A file that is open for writing, with the text written so far. -/
structure Output where
  target : Target
  text : String

namespace Output

/-- The number of bytes that an output holds back before it hands them to its target. -/
def blockSize : Nat := 8192

/-- Write a text. A full device is found out when more than one block has been written. -/
def write (o : Output) (text : String) : Except StorageError Output :=
  let text := o.text ++ text
  match o.target with
  | .device .full => if blockSize < text.utf8ByteSize then .error .noSpace else .ok { o with text }
  | _ => .ok { o with text }

/-- Hand over what is held back. -/
def flush (o : Output) : Except StorageError Unit :=
  match o.target with
  | .device .full => if o.text = "" then .ok () else .error .noSpace
  | _ => .ok ()

/-- The storage after an output is closed. -/
def close (o : Output) (s : Storage) : Storage :=
  match o.target with
  | .file number => s.setContent number o.text.toUTF8
  | .device _ => s

end Output

end Storage

end Conjunct
