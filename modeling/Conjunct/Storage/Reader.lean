import Conjunct.Storage.Tree
import Conjunct.Text.Lines

/-!
# Reading files

A file is read as one text, which has to be UTF-8, or line by line, where each line is decoded on
its own. Opening and reading fail separately: a directory can be opened, and every attempt to read
from it fails.
-/

namespace Conjunct

namespace Storage

/-- The whole text of a file. -/
def readText (s : Storage) (path : Path) : Except StorageError String := do
  match (← s.find path).2 with
  | .directory => .error .isADirectory
  | .device _ => return ""
  | .file number =>
    match String.fromUTF8? (s.content number) with
    | some text => return text
    | none => .error .notUtf8

theorem readText_of_find {s : Storage} {path : Path} {place : Place} {number : Nat} {text : String}
    (hfind : s.find path = .ok (place, .file number))
    (hcontent : s.content number = text.toUTF8) : s.readText path = .ok text := by
  have hdecode : String.fromUTF8? text.toUTF8 = some text := dif_pos text.isValidUTF8
  simp only [readText, hfind, bind, Except.bind]
  rw [hcontent, hdecode]
  rfl

/-- A file that is open for reading line by line. Its content is looked up when the first line is
asked for. -/
inductive Reader where
  | directory
  | unread (number : Nat)
  | lines (rest : List Line)

/-- Open a file for reading. A directory opens too, but no line can be read from it. -/
def openReader (s : Storage) (path : Path) : Except StorageError Reader := do
  match (← s.find path).2 with
  | .directory => return .directory
  | .device _ => return .lines []
  | .file number => return .unread number

/-- The lines that are still to be read. -/
def Reader.pending (s : Storage) : Reader → Except StorageError (List Line)
  | directory => .error .isADirectory
  | unread number => .ok (Line.ofContent (s.content number))
  | lines rest => .ok rest

end Storage

end Conjunct
